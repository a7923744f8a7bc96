import SandboxVfs.Library.Acyclic

/-! Forests of named edges: every node is below a root, along edges that lead to no node
twice. Single edges and roots are taken out and put in. -/

namespace SandboxVfs.NameGraph

variable {N L : Type*} {e e' : Edges N L} {nodes roots : Set N} {b c d n : N} {x y : L}

structure IsForest (e : Edges N L) (nodes roots : Set N) : Prop where
  source : ∀ d x c, e d x = some c → d ∈ nodes
  target : ∀ d x c, e d x = some c → c ∈ nodes
  once : ∀ a x b y c, e a x = some c → e b y = some c → a = b ∧ x = y
  root_mem : ∀ r ∈ roots, r ∈ nodes
  root_top : ∀ r ∈ roots, ∀ d x, e d x ≠ some r
  reached : ∀ c ∈ nodes, ∃ r ∈ roots, Reaches e r c

namespace IsForest

theorem acyclic (h : IsForest e nodes roots) : Acyclic e := by
  intro c hc
  have hmem : c ∈ nodes := by
    obtain ⟨d, ⟨x, hx⟩, -⟩ := (Relation.TransGen.head'_iff).mp hc
    exact h.source c x d hx
  obtain ⟨r, hr, hrc⟩ := h.reached c hmem
  rw [reaches_iff_links] at hrc
  clear hmem
  -- a cycle goes back along the way from the root, up to the root itself
  induction hrc with
  | refl =>
    obtain ⟨b, -, y, hy⟩ := (Relation.TransGen.tail'_iff).mp hc
    exact h.root_top r hr b y hy
  | @tail b c _ hbc ih =>
    obtain ⟨y, hy⟩ := hbc
    obtain ⟨b', hb', z, hz⟩ := (Relation.TransGen.tail'_iff).mp hc
    obtain ⟨rfl, -⟩ := h.once b y b' z c hy hz
    exact ih (Relation.TransGen.head' ⟨y, hy⟩ hb')

theorem addRoot (h : IsForest e nodes roots) (hn : n ∉ nodes) :
    IsForest e (insert n nodes) (insert n roots) := by
  refine ⟨fun d x c he => Or.inr (h.source d x c he), fun d x c he => Or.inr (h.target d x c he),
    h.once, ?_, ?_, ?_⟩
  · rintro r (rfl | hr)
    · exact Or.inl rfl
    · exact Or.inr (h.root_mem r hr)
  · rintro r (rfl | hr) d x he
    · exact hn (h.target d x r he)
    · exact h.root_top r hr d x he
  · rintro c (rfl | hc)
    · exact ⟨c, Or.inl rfl, Reaches.root e c⟩
    · obtain ⟨r, hr, hrc⟩ := h.reached c hc
      exact ⟨r, Or.inr hr, hrc⟩

theorem dropRoot (h : IsForest e nodes (insert c roots)) (hc : c ∉ roots)
    (hleaf : ∀ x, e c x = none) : IsForest e (nodes \ {c}) roots := by
  have hsource {d k : N} {z : L} (he : e d z = some k) : d ≠ c := by
    rintro rfl
    rw [hleaf z] at he
    cases he
  refine ⟨fun d z k he => ⟨h.source d z k he, hsource he⟩, fun d z k he => ?_, h.once,
    fun r hr => ⟨h.root_mem r (Or.inr hr), ?_⟩, fun r hr => h.root_top r (Or.inr hr), ?_⟩
  · refine ⟨h.target d z k he, ?_⟩
    rintro rfl
    exact h.root_top k (Or.inl rfl) d z he
  · rintro rfl
    exact hc hr
  · rintro k ⟨hk, hkc⟩
    obtain ⟨r, rfl | hr, hrk⟩ := h.reached k hk
    · rw [reaches_iff_links] at hrk
      rcases Relation.ReflTransGen.cases_head hrk with rfl | ⟨d, ⟨z, hz⟩, -⟩
      · exact absurd rfl hkc
      · rw [hleaf z] at hz
        cases hz
    · exact ⟨r, hr, hrk⟩

section

variable [DecidableEq N] [DecidableEq L]

omit [DecidableEq N] [DecidableEq L] in
theorem ne_of_edge (h : IsForest e nodes (insert c roots)) (he : e d x = some n) : n ≠ c := by
  rintro rfl
  exact h.root_top n (Or.inl rfl) d x he

/-- What an edge leads to becomes a root. -/
theorem detach (h : IsForest e nodes roots) (hx : e d x = some c) :
    IsForest (setEdge e d x none) nodes (insert c roots) := by
  have hold {k m : N} {z : L} (he : setEdge e d x none k z = some m) : e k z = some m := by
    unfold setEdge at he
    split_ifs at he
    exact he
  refine ⟨fun k z m he => h.source k z m (hold he), fun k z m he => h.target k z m (hold he),
    fun a w b z m ha hb => h.once a w b z m (hold ha) (hold hb), ?_, ?_, ?_⟩
  · rintro r (rfl | hr)
    · exact h.target d x r hx
    · exact h.root_mem r hr
  · rintro r (rfl | hr) k z he
    · have hk := h.once k z d x r (hold he) hx
      rw [setEdge, if_pos hk] at he
      cases he
    · exact h.root_top r hr k z (hold he)
  · intro m hm
    obtain ⟨r, hr, hrm⟩ := h.reached m hm
    have hsplit : Reaches (setEdge e d x none) r m ∨ Reaches (setEdge e d x none) c m := by
      refine Reaches.split (fun k z n he => ?_) hrm
      by_cases hk : k = d ∧ z = x
      · left
        rw [hk.1, hk.2, hx] at he
        exact (Option.some.inj he).symm
      · exact Or.inr ((Reaches.root _ k).step (by rw [setEdge_ne hk, he]))
    rcases hsplit with hh | hh
    · exact ⟨r, Or.inr hr, hh⟩
    · exact ⟨c, Or.inl rfl, hh⟩

/-- A root is put below a node that it does not lead to. -/
theorem attach (h : IsForest e nodes (insert c roots)) (hc : c ∉ roots) (hd : d ∈ nodes)
    (hfree : e d x = none) (hbelow : ¬ Reaches e c d) :
    IsForest (setEdge e d x (some c)) nodes roots := by
  have hcases {k m : N} {z : L} (he : setEdge e d x (some c) k z = some m) :
      (k = d ∧ z = x ∧ m = c) ∨ e k z = some m := by
    unfold setEdge at he
    split_ifs at he with hk
    · exact Or.inl ⟨hk.1, hk.2, (Option.some.inj he).symm⟩
    · exact Or.inr he
  have hkept {r m : N} (hr : Reaches e r m) : Reaches (setEdge e d x (some c)) r m := by
    refine Reaches.lift (fun _ => True) (fun k z m he _ => ⟨trivial, ?_⟩) hr trivial
    refine (Reaches.root _ k).step (x := z) ?_
    rw [setEdge_ne, he]
    rintro ⟨rfl, rfl⟩
    cases hfree.symm.trans he
  refine ⟨?_, ?_, ?_, fun r hr => h.root_mem r (Or.inr hr), ?_, ?_⟩
  · intro k z m he
    rcases hcases he with ⟨rfl, -, -⟩ | he
    · exact hd
    · exact h.source k z m he
  · intro k z m he
    rcases hcases he with ⟨-, -, rfl⟩ | he
    · exact h.root_mem m (Or.inl rfl)
    · exact h.target k z m he
  · intro a w b z m ha hb
    rcases hcases ha with ⟨rfl, rfl, rfl⟩ | ha
    · rcases hcases hb with ⟨rfl, rfl, -⟩ | hb
      · exact ⟨rfl, rfl⟩
      · exact absurd rfl (h.ne_of_edge hb)
    · rcases hcases hb with ⟨-, -, hm⟩ | hb
      · exact absurd hm (h.ne_of_edge ha)
      · exact h.once a w b z m ha hb
  · intro r hr k z he
    rcases hcases he with ⟨-, -, rfl⟩ | he
    · exact hc hr
    · exact h.root_top r (Or.inr hr) k z he
  · intro m hm
    obtain ⟨r, rfl | hr, hrm⟩ := h.reached m hm
    -- what the root leads to is now below the node
    · obtain ⟨s, rfl | hs, hsd⟩ := h.reached d hd
      · exact absurd hsd hbelow
      · exact ⟨s, hs, ((hkept hsd).step (setEdge_self e d x _)).trans (hkept hrm)⟩
    · exact ⟨r, hr, hkept hrm⟩

theorem replace (h : IsForest e nodes (insert c roots)) (hc : c ∉ roots) (hd : d ∈ nodes)
    (hx : e d x = some n) (hbelow : ¬ Reaches e c d) :
    IsForest (setEdge e d x (some c)) nodes (insert n roots) := by
  have hne : n ≠ c := h.ne_of_edge hx
  have hdet := h.detach hx
  rw [Set.insert_comm] at hdet
  have hcn : c ∉ insert n roots := by
    rintro (rfl | hh)
    · exact hne rfl
    · exact hc hh
  have hless : ¬ Reaches (setEdge e d x none) c d := by
    intro hr
    refine hbelow (Reaches.lift (fun _ => True) (fun k z m he _ => ⟨trivial, ?_⟩) hr trivial)
    unfold setEdge at he
    split_ifs at he
    exact (Reaches.root e k).step he
  have hatt := hdet.attach hcn hd (setEdge_self e d x none) hless
  have hset : setEdge (setEdge e d x none) d x (some c) = setEdge e d x (some c) := by
    funext k z
    unfold setEdge
    split_ifs <;> rfl
  rwa [hset] at hatt

end

end IsForest

end SandboxVfs.NameGraph
