import SandboxVfs.Library.NameGraph

/-! Graphs of named edges without cycles, and the one edge that can close a cycle. -/

namespace SandboxVfs.NameGraph

variable {N L : Type*} {e e' : Edges N L} {a b c n m : N} {x y : L}

def Link (e : Edges N L) (n m : N) : Prop := ∃ x, e n x = some m

def Acyclic (e : Edges N L) : Prop := ∀ n, ¬ Relation.TransGen (Link e) n n

theorem reaches_iff_links : Reaches e n m ↔ Relation.ReflTransGen (Link e) n m := by
  constructor
  · rintro ⟨p, hp⟩
    induction p using List.reverseRecOn generalizing m with
    | nil =>
      cases hp
      exact .refl
    | append_singleton p x ih =>
      obtain ⟨d, hd, hx⟩ := walk_concat_eq_some hp
      exact (ih hd).tail ⟨x, hx⟩
  · intro h
    induction h with
    | refl => exact Reaches.root e n
    | tail _ hl ih =>
      obtain ⟨x, hx⟩ := hl
      exact ih.step hx

theorem Acyclic.mono (h : Acyclic e) (hl : ∀ n m, Link e' n m → Link e n m) : Acyclic e' :=
  fun n hn => h n (Relation.TransGen.mono hl n n hn)

/-- A way along the new edges either is one along the old ones, or passes through the
edge from `b` to `c`. -/
theorem transGen_of_link (hl : ∀ n m, Link e' n m → Link e n m ∨ n = b ∧ m = c)
    (h : Relation.TransGen (Link e') n m) :
    Relation.TransGen (Link e) n m ∨ Reaches e n b ∧ Reaches e c m := by
  induction h with
  | single hnm =>
    rcases hl _ _ hnm with hh | ⟨rfl, rfl⟩
    · exact Or.inl (.single hh)
    · exact Or.inr ⟨Reaches.root e _, Reaches.root e _⟩
  | tail _ hmk ih =>
    rcases hl _ _ hmk with ⟨z, hz⟩ | ⟨rfl, rfl⟩
    · rcases ih with hh | ⟨hn, hc⟩
      · exact Or.inl (hh.tail ⟨z, hz⟩)
      · exact Or.inr ⟨hn, hc.step hz⟩
    · rcases ih with hh | ⟨hn, -⟩
      · exact Or.inr ⟨reaches_iff_links.mpr hh.to_reflTransGen, Reaches.root e _⟩
      · exact Or.inr ⟨hn, Reaches.root e _⟩

theorem Acyclic.of_link (h : Acyclic e) (hcb : ¬ Reaches e c b)
    (hl : ∀ n m, Link e' n m → Link e n m ∨ n = b ∧ m = c) : Acyclic e' := by
  intro n hn
  rcases transGen_of_link hl hn with hh | ⟨hnb, hcn⟩
  · exact h n hh
  · exact hcb (hcn.trans hnb)

theorem setEdge_link [DecidableEq N] [DecidableEq L] {o : Option N} {n m : N}
    (h : Link (setEdge e b y o) n m) : Link e n m ∨ n = b ∧ o = some m := by
  obtain ⟨z, hz⟩ := h
  unfold setEdge at hz
  split_ifs at hz with he
  · exact Or.inr ⟨he.1, hz⟩
  · exact Or.inl ⟨z, hz⟩

/-- The first time that a way from `c` comes to `b`, it has not used the edge `y` of `b`. -/
theorem reaches_setEdge [DecidableEq N] [DecidableEq L] {o : Option N} (h : Reaches e c b) :
    Reaches (setEdge e b y o) c b := by
  have hkept {m : N} (hm : Reaches e c m) :
      Reaches (setEdge e b y o) c m ∨ Reaches (setEdge e b y o) c b := by
    rw [reaches_iff_links] at hm
    induction hm with
    | refl => exact Or.inl (Reaches.root _ c)
    | @tail k m _ hkm ih =>
      rcases ih with ih | ih
      · obtain ⟨z, hz⟩ := hkm
        by_cases hb : k = b ∧ z = y
        · exact Or.inr (hb.1 ▸ ih)
        · refine Or.inl (ih.step (x := z) ?_)
          rw [setEdge, if_neg hb, hz]
      · exact Or.inr ih
  exact (hkept h).elim (fun hh => hh) fun hh => hh

/-- An edge that is set closes a cycle exactly when its start was reached from its end. -/
theorem Acyclic.set_iff [DecidableEq N] [DecidableEq L] (h : Acyclic e) :
    Acyclic (setEdge e b y (some c)) ↔ ¬ Reaches e c b := by
  constructor
  · intro hac hreach
    have hcb : Reaches (setEdge e b y (some c)) c b := reaches_setEdge hreach
    refine hac c (Relation.TransGen.tail' (reaches_iff_links.mp hcb) ⟨y, ?_⟩)
    simp [setEdge]
  · intro hcb
    refine h.of_link hcb fun n m hl => ?_
    rcases setEdge_link hl with hh | ⟨hn, hm⟩
    · exact Or.inl hh
    · exact Or.inr ⟨hn, (Option.some.inj hm).symm⟩

theorem Acyclic.unset [DecidableEq N] [DecidableEq L] (h : Acyclic e) (a : N) (x : L) :
    Acyclic (setEdge e a x none) := by
  refine h.mono fun n m hl => ?_
  rcases setEdge_link hl with hh | ⟨-, hm⟩
  · exact hh
  · cases hm

/-- Moving an edge closes a cycle exactly when it is moved below its own end. -/
theorem Acyclic.move_iff [DecidableEq N] [DecidableEq L] (h : Acyclic e) (hx : e a x = some c) :
    Acyclic (setEdge (setEdge e a x none) b y (some c)) ↔ ¬ Reaches e c b := by
  rw [(h.unset a x).set_iff, not_iff_not, reaches_iff_links, reaches_iff_links]
  constructor
  · intro hreach
    refine Relation.ReflTransGen.mono (fun n m hl => ?_) c b hreach
    rcases setEdge_link hl with hh | ⟨-, hm⟩
    · exact hh
    · cases hm
  · intro hreach
    -- a way from `c` never takes the edge to `c`
    induction hreach with
    | refl => exact .refl
    | @tail k m hck hkm ih =>
      obtain ⟨z, hz⟩ := hkm
      refine ih.tail ⟨z, ?_⟩
      rw [setEdge, if_neg, hz]
      rintro ⟨rfl, rfl⟩
      exact h c (Relation.TransGen.tail' hck ⟨z, hx⟩)

/-- Where only finitely many nodes have an edge, every way along the edges ends. -/
theorem Acyclic.wellFounded (h : Acyclic e) (hfin : {n | ∃ m, Link e n m}.Finite) :
    WellFounded fun m n => Link e n m := by
  let below (n : N) : Set N := {k | (∃ m, Link e k m) ∧ Relation.ReflTransGen (Link e) n k}
  have hbelow (n : N) : (below n).Finite := hfin.subset fun k hk => hk.1
  refine Subrelation.wf ?_ (measure fun n => (below n).ncard).wf
  intro m n hl
  refine Set.ncard_lt_ncard ⟨fun k hk => ⟨hk.1, hk.2.head hl⟩, fun hsub => ?_⟩ (hbelow n)
  exact h n (Relation.TransGen.head' hl (hsub ⟨⟨m, hl⟩, .refl⟩).2)

end SandboxVfs.NameGraph
