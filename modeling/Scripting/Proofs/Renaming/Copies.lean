import Mathlib.Tactic.Common
import Scripting.Proofs.Renaming.Parallel

/-! Copies. A copy is made of new objects only, which nobody knows but who asked for it, so it can
be put into any vector without getting inside itself. -/
namespace Scripting.Eval

open Relation

variable {D : Decl → Prop} {R S R' : Pairing} {s t s' t' : State} {o p : ObjectId}
  {span : Option Span}

/-! ### Trees -/

mutual

theorem build_renamed {R : Pairing} {s t : State} (x : Tree) (hx : x.Every (Atom.Allowed D))
    (hst : s.Renamed D R t) :
    ∃ S, R.Grows s.heap.store t.heap.store S (s.heap.build x).2.store (t.heap.build x).2.store ∧
      (s.withHeap (s.heap.build x).2).Renamed D S (t.withHeap (t.heap.build x).2) ∧
      S (s.heap.build x).1 (t.heap.build x).1 := by
  cases x with
  | atom a => exact Parallel.alloc (.atom hx) s t hst
  | tuple xs =>
    obtain ⟨S, hgrow, hst', hall⟩ := buildAll_renamed #[] #[] xs hx hst .nil
    obtain ⟨S', hgrow', hst'', hpair⟩ := Parallel.alloc (.tuple hall) _ _ hst'
    exact ⟨S', hgrow.trans hgrow', hst'', hpair⟩
  | vector xs =>
    obtain ⟨S, hgrow, hst', hall⟩ := buildAll_renamed #[] #[] xs hx hst .nil
    obtain ⟨S', hgrow', hst'', hpair⟩ := Parallel.alloc (.vector hall) _ _ hst'
    exact ⟨S', hgrow.trans hgrow', hst'', hpair⟩

theorem buildAll_renamed {R : Pairing} {s t : State} (done done' : Array ObjectId) (xs : List Tree)
    (hxs : Tree.EveryOf (Atom.Allowed D) xs) (hst : s.Renamed D R t)
    (hdone : List.Forall₂ R done.toList done'.toList) :
    ∃ S, R.Grows s.heap.store t.heap.store S (s.heap.buildAll done xs).2.store
        (t.heap.buildAll done' xs).2.store ∧
      (s.withHeap (s.heap.buildAll done xs).2).Renamed D S
        (t.withHeap (t.heap.buildAll done' xs).2) ∧
      List.Forall₂ S (s.heap.buildAll done xs).1.toList (t.heap.buildAll done' xs).1.toList := by
  cases xs with
  | nil => exact ⟨R, .refl, hst, hdone⟩
  | cons x xs =>
    obtain ⟨S, hgrow, hst', hpair⟩ := build_renamed x hxs.1 hst
    have hdone' : Pointwise S (done.push (s.heap.build x).1) (done'.push (t.heap.build x).1) :=
      Pointwise.push (hdone.imp hgrow.le) hpair
    obtain ⟨S', hgrow', hst'', hall⟩ := buildAll_renamed _ _ xs hxs.2 hst' hdone'
    exact ⟨S', hgrow.trans hgrow', hst'', hall⟩

end

/-- Objects that stand for each other and are made of nothing that was known before: the pairs that
were known will do without them. -/
structure Private (D : Decl → Prop) (R S : Pairing) (s t : State)
    (os ps : List ObjectId) : Prop where
  le : R ≤ S
  base : s.Renamed D R t
  all : s.Renamed D S t
  pairs : List.Forall₂ S os ps
  left : ∀ o ∈ os, s.heap.store.Apart (fun o => ∃ p, R o p) o
  right : ∀ p ∈ ps, t.heap.store.Apart (fun p => ∃ o, R o p) p

/-- What was known is still known when new objects have come. -/
theorem Private.of_adds {h k : Heap} {os ps : List ObjectId} (hst : s.Renamed D R t)
    (hgrow : R.Grows s.heap.store t.heap.store S h.store k.store)
    (hall : (s.withHeap h).Renamed D S (t.withHeap k)) (hpairs : List.Forall₂ S os ps)
    (hs : s.heap.store.Adds h.store) (hos : ∀ o ∈ os, s.heap.store.next ≤ o)
    (ht : t.heap.store.Adds k.store) (hps : ∀ p ∈ ps, t.heap.store.next ≤ p) :
    Private D R S (s.withHeap h) (t.withHeap k) os ps where
  le := hgrow.le
  base := by
    have hsame : R.Grows s.heap.store t.heap.store R h.store k.store :=
      ⟨fun _ _ => id, .inl, .adds hs, .adds ht⟩
    refine hst.change hsame ?_ hst.env rfl rfl
    exact hst.store.congr (fun q hq => ⟨hs.has hq, hs.value hq⟩)
      (fun q hq => ⟨ht.has hq, ht.value hq⟩)
      hall.store.left hall.store.right
  all := hall
  pairs := hpairs
  left := fun o ho => hs.apart (hos o ho) fun q ⟨_, hq⟩ => (hst.store.has hq).1
  right := fun p hp => ht.apart (hps p hp) fun q ⟨_, hq⟩ => (hst.store.has hq).2

/-! ### Copies -/

theorem build_private {x : Tree} (hst : s.Renamed D R t) (hx : x.Every (Atom.Allowed D)) :
    ∃ c d S s' t', Eval.build x s = .ok c s' ∧ Eval.build x t = .ok d t' ∧
      R.Grows s.heap.store t.heap.store S s'.heap.store t'.heap.store ∧
        Private D R S s' t' [c] [d] := by
  obtain ⟨S, hgrow, hst', hpair⟩ := build_renamed x hx hst
  obtain ⟨hsadds, hsnew⟩ := s.heap.adds_build x hx
  obtain ⟨htadds, htnew⟩ := t.heap.adds_build x hx
  refine ⟨(s.heap.build x).1, (t.heap.build x).1, S, s.withHeap (s.heap.build x).2,
    t.withHeap (t.heap.build x).2, rfl, rfl, hgrow, ?_⟩
  exact .of_adds hst hgrow hst' (.cons hpair .nil) hsadds (by simpa using hsnew) htadds
    (by simpa using htnew)

theorem allocAtom_private {a : Atom} (hst : s.Renamed D R t) (ha : a.Allowed D) :
    ∃ c d S s' t', Eval.allocAtom a s = .ok c s' ∧ Eval.allocAtom a t = .ok d t' ∧
      R.Grows s.heap.store t.heap.store S s'.heap.store t'.heap.store ∧
        Private D R S s' t' [c] [d] :=
  build_private (x := .atom a) hst ha

theorem copy_private (hst : s.Renamed D R t) (hop : R o p) :
    ∃ c d S s' t', Eval.copy o s = .ok c s' ∧ Eval.copy p t = .ok d t' ∧
      R.Grows s.heap.store t.heap.store S s'.heap.store t'.heap.store ∧
        Private D R S s' t' [c] [d] := by
  obtain ⟨x, hs, ht, hx⟩ := hst.store.exists_tree hop
  simp only [Eval.copy]
  rw [bind_ok (treeOf_eq hs), bind_ok (treeOf_eq ht)]
  exact build_private hst hx

theorem treesOf_eq {os ps : List ObjectId} (hst : s.Renamed D R t) (hops : List.Forall₂ R os ps) :
    ∃ xs, Eval.treesOf os s = .ok xs s ∧ Eval.treesOf ps t = .ok xs t ∧
      Tree.EveryOf (Atom.Allowed D) xs := by
  induction hops with
  | nil => exact ⟨[], rfl, rfl, trivial⟩
  | cons hop _ ih =>
    obtain ⟨xs, hs, ht, hxs⟩ := ih
    obtain ⟨x, hs', ht', hx⟩ := hst.store.exists_tree hop
    refine ⟨x :: xs, ?_, ?_, hx, hxs⟩
    · simp only [Eval.treesOf, Bind.bind, EStateM.bind, treeOf_eq hs', hs]
      rfl
    · simp only [Eval.treesOf, Bind.bind, EStateM.bind, treeOf_eq ht', ht]
      rfl

theorem copyAll_private {os ps : List ObjectId} (hst : s.Renamed D R t)
    (hops : List.Forall₂ R os ps) :
    ∃ es fs S s' t', Eval.copyAll os s = .ok es s' ∧ Eval.copyAll ps t = .ok fs t' ∧
      R.Grows s.heap.store t.heap.store S s'.heap.store t'.heap.store ∧
      Private D R S s' t' es.toList fs.toList := by
  obtain ⟨xs, hs, ht, hxs⟩ := treesOf_eq hst hops
  obtain ⟨S, hgrow, hst', hall⟩ := buildAll_renamed #[] #[] xs hxs hst .nil
  obtain ⟨hsadds, hsnew⟩ := s.heap.adds_buildAll xs hxs
  obtain ⟨htadds, htnew⟩ := t.heap.adds_buildAll xs hxs
  refine ⟨(s.heap.buildAll #[] xs).1, (t.heap.buildAll #[] xs).1, S,
    s.withHeap (s.heap.buildAll #[] xs).2, t.withHeap (t.heap.buildAll #[] xs).2, ?_, ?_, hgrow, ?_⟩
  · simp only [Eval.copyAll, Bind.bind, EStateM.bind, hs]
    rfl
  · simp only [Eval.copyAll, Bind.bind, EStateM.bind, ht]
    rfl
  · exact .of_adds hst hgrow hst' hall hsadds (by simpa using hsnew) htadds (by simpa using htnew)

namespace Parallel

theorem build {x : Tree} (hx : x.Every (Atom.Allowed D)) :
    Parallel D R (Eval.build x) (Eval.build x) Paired := fun _ _ hst => build_renamed x hx hst

theorem copy (hop : R o p) : Parallel D R (Eval.copy o) (Eval.copy p) Paired := by
  intro s t hst
  obtain ⟨c, c', S, s', t', hs, ht, hgrow, hprivate⟩ := copy_private hst hop
  rw [hs, ht]
  exact ⟨S, hgrow, hprivate.all, (List.forall₂_cons.mp hprivate.pairs).1⟩

theorem copyAll {os ps : List ObjectId} (hops : List.Forall₂ R os ps) :
    Parallel D R (Eval.copyAll os) (Eval.copyAll ps)
      (fun R es fs => List.Forall₂ R es.toList fs.toList) := by
  intro s t hst
  obtain ⟨es, fs, S, s', t', hs, ht, hgrow, hprivate⟩ := copyAll_private hst hops
  rw [hs, ht]
  exact ⟨S, hgrow, hprivate.all, hprivate.pairs⟩

theorem textOf (hop : R o p) : Parallel D R (Eval.textOf o) (Eval.textOf p) Same := by
  intro s t hst
  obtain ⟨x, hs, ht, -⟩ := hst.store.exists_tree hop
  simp only [Eval.textOf, Bind.bind, EStateM.bind, treeOf_eq hs, treeOf_eq ht]
  exact ⟨R, .refl, hst, rfl⟩

end Parallel

/-! ### What is done with copies -/

namespace Private

variable {os ps : List ObjectId}

/-- Private objects stay private while evaluations go on that do not know them. -/
theorem carry (h : Private D R S s t os ps)
    (hgrow : R.Grows s.heap.store t.heap.store R' s'.heap.store t'.heap.store)
    (hst : s'.Renamed D R' t') : Private D R' (S ⊔ R') s' t' os ps where
  le := le_sup_right
  base := hst
  all := { hst with
    store := h.all.store.frame h.le hgrow hst.store
    env := hst.env.mono le_sup_right }
  pairs := h.pairs.imp fun _ _ => .inl
  left := by
    rintro o ho q hq ⟨r, hqr⟩
    obtain ⟨r', -, hor⟩ := exists_of_forall₂_left h.pairs ho
    obtain ⟨hpath, hhas⟩ :=
      hgrow.left.inside h.all.store.left.closed (h.all.store.has hor).1 (h.left o ho) hq
    rcases hgrow.new hqr with hold | ⟨hnew, -⟩ | ⟨hfun, -⟩
    · exact hgrow.left.isFunction (h.left o ho q hpath ⟨r, hold⟩)
    · exact absurd hhas.lt_next (Nat.not_lt.mpr hnew)
    · exact hfun
  right := by
    rintro p hp q hq ⟨r, hrq⟩
    obtain ⟨r', -, hrp⟩ := exists_of_forall₂_right h.pairs hp
    obtain ⟨hpath, hhas⟩ :=
      hgrow.right.inside h.all.store.right.closed (h.all.store.has hrp).2 (h.right p hp) hq
    rcases hgrow.new hrq with hold | ⟨-, hnew⟩ | ⟨-, hfun⟩
    · exact hgrow.right.isFunction (h.right p hp q hpath ⟨r, hold⟩)
    · exact absurd hhas.lt_next (Nat.not_lt.mpr hnew)
    · exact hfun

/-- A vector that was known may get private elements. -/
theorem setVector {v w : ObjectId} {es fs es' fs' : Array ObjectId} (h : Private D R S s t os ps)
    (hvw : R v w) (hes : s.heap.store.value v = .vector es)
    (hfs : t.heap.store.value w = .vector fs)
    (hall : List.Forall₂ S es'.toList fs'.toList) (hleft : ∀ e ∈ es', e ∈ es ∨ e ∈ os)
    (hright : ∀ f ∈ fs', f ∈ fs ∨ f ∈ ps) :
    Ended D S s t Same (Eval.setValue v (.vector es') s) (Eval.setValue w (.vector fs') t) := by
  have hvector : ∀ {u : Store} {q : ObjectId} {xs : Array ObjectId}, u.value q = .vector xs →
      ¬ u.IsFunction q := by
    rintro u q xs hq ⟨d, hd⟩
    rw [hq] at hd
    cases hd
  have hgrow : S.Grows s.heap.store t.heap.store S (s.heap.store.setValue v (.vector es'))
      (t.heap.store.setValue w (.vector fs')) := .setVector (h.le _ _ hvw) hes hfs
  refine ⟨S, hgrow, h.all.change hgrow ?_ h.all.env rfl rfl, rfl⟩
  refine h.all.store.setVector (h.le _ _ hvw) hes hfs hall (fun e he => (hleft e he).imp_right ?_)
    (fun f hf => (hright f hf).imp_right ?_)
  · exact fun he hpath => hvector hes (h.left e he v hpath ⟨w, hvw⟩)
  · exact fun hf hpath => hvector hfs (h.right f hf w hpath ⟨v, hvw⟩)

end Private
end Scripting.Eval
