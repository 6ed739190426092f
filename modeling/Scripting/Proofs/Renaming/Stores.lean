import Mathlib.Data.List.Forall2
import Mathlib.Logic.Relation
import Mathlib.Order.ConditionallyCompleteLattice.Basic
import Mathlib.Tactic.Common
import Scripting.Proofs.Store.Acyclic
import Scripting.Proofs.Store.Trees

/-! Two stores that are the same up to the numbers of their objects. Objects of declared functions
may stand for several others; every other object stands for one. -/
namespace Scripting

open Relation

/-- Which objects of two stores stand for each other. -/
abbrev Pairing := ObjectId → ObjectId → Prop

/-- One more pair. -/
def Pairing.insert (R : Pairing) (o p : ObjectId) : Pairing := fun a b => R a b ∨ a = o ∧ b = p

theorem Pairing.le_insert {R : Pairing} {o p : ObjectId} : R ≤ R.insert o p := fun _ _ => .inl

/-- Atoms of scripts: their functions are among the given ones, and no builtin tells how often an
object is bound. -/
def Atom.Allowed (D : Decl → Prop) : Atom → Prop
  | .function d => D d
  | .builtin b => b.primitive ≠ .bindings
  | _ => True

theorem Atom.IsData.allowed {D : Decl → Prop} {a : Atom} (h : a.IsData) : a.Allowed D := by
  cases a <;> trivial

/-- Two values that are the same but for the numbers of objects. -/
inductive Value.Renamed (D : Decl → Prop) (R : Pairing) : Value → Value → Prop
  | atom {a : Atom} (h : a.Allowed D) : Renamed D R (.atom a) (.atom a)
  | tuple {es fs : Array ObjectId} (h : List.Forall₂ R es.toList fs.toList) :
      Renamed D R (.tuple es) (.tuple fs)
  | vector {es fs : Array ObjectId} (h : List.Forall₂ R es.toList fs.toList) :
      Renamed D R (.vector es) (.vector fs)

namespace Value.Renamed

variable {D : Decl → Prop} {R R' : Pairing} {v w : Value}

theorem mono (h : Renamed D R v w) (hle : R ≤ R') : Renamed D R' v w := by
  cases h with
  | atom ha => exact .atom ha
  | tuple h => exact .tuple (h.imp hle)
  | vector h => exact .vector (h.imp hle)

theorem elements (h : Renamed D R v w) : List.Forall₂ R v.elements.toList w.elements.toList := by
  cases h with
  | atom => exact .nil
  | tuple h | vector h => exact h

theorem kind (h : Renamed D R v w) : w.kind = v.kind := by cases h <;> rfl

theorem length? (h : Renamed D R v w) : w.length? = v.length? := by
  cases h with
  | atom => rfl
  | tuple h | vector h => simpa [Value.length?] using h.length_eq.symm

theorem bool? (h : Renamed D R v w) : w.bool? = v.bool? := by cases h <;> rfl

theorem int? (h : Renamed D R v w) : w.int? = v.int? := by cases h <;> rfl

end Value.Renamed

theorem exists_of_forall₂_left {α β : Type} {R : α → β → Prop} {l : List α} {k : List β} {a : α}
    (h : List.Forall₂ R l k) (ha : a ∈ l) : ∃ b ∈ k, R a b := by
  induction h with
  | nil => cases ha
  | cons hab _ ih =>
    rcases List.mem_cons.mp ha with rfl | ha
    · exact ⟨_, by simp, hab⟩
    · obtain ⟨b, hb, hR⟩ := ih ha
      exact ⟨b, by simp [hb], hR⟩

theorem exists_of_forall₂_right {α β : Type} {R : α → β → Prop} {l : List α} {k : List β} {b : β}
    (h : List.Forall₂ R l k) (hb : b ∈ k) : ∃ a ∈ l, R a b :=
  exists_of_forall₂_left h.flip hb

theorem mapM_congr_forall₂ {α β γ : Type} {R : α → β → Prop} {f : α → Option γ} {g : β → Option γ}
    {l : List α} {k : List β} (h : List.Forall₂ R l k) (hfg : ∀ a b, R a b → f a = g b) :
    l.mapM f = k.mapM g := by
  induction h with
  | nil => rfl
  | cons hab _ ih => rw [List.mapM_cons, List.mapM_cons, hfg _ _ hab, ih]

theorem isEqv_congr_forall₂ {R : Pairing} {same same' : ObjectId → ObjectId → Bool}
    {as bs cs ds : Array ObjectId} (hab : List.Forall₂ R as.toList bs.toList)
    (hcd : List.Forall₂ R cs.toList ds.toList)
    (hsame : ∀ a b c d, R a b → R c d → same a c = same' b d) :
    as.isEqv cs same = bs.isEqv ds same' := by
  have hlist : ∀ {l k m n : List ObjectId}, List.Forall₂ R l k → List.Forall₂ R m n →
      l.isEqv m same = k.isEqv n same' := by
    intro l k m n hlk
    induction hlk generalizing m n with
    | nil =>
      intro hmn
      cases hmn <;> rfl
    | cons hab _ ih =>
      intro hmn
      cases hmn with
      | nil => rfl
      | cons hcd hmn =>
        rw [List.isEqv_cons_cons, List.isEqv_cons_cons, hsame _ _ _ _ hab hcd, ih hmn]
  rw [← Array.isEqv_toList, ← Array.isEqv_toList]
  exact hlist hab hcd

namespace Store

variable {D : Decl → Prop} {R : Pairing} {s t : Store} {o p : ObjectId}

/-- Objects are in order: what is inside one is there, and is not the object itself. -/
structure Orderly (s : Store) : Prop where
  acyclic : s.Acyclic
  closed : s.Closed

theorem isFunction_congr (hop : (s.value o).Renamed D R (t.value p)) :
    s.IsFunction o ↔ t.IsFunction p := by
  generalize hs : s.value o = v at hop
  generalize ht : t.value p = w at hop
  simp only [IsFunction, hs, ht]
  cases hop with
  | atom => rfl
  | tuple | vector => simp

/-- Objects that stand for each other are other than two that stand for a function, or are functions
themselves. -/
theorem unique_of_isFunction {o' p' : ObjectId} (hop : (s.value o).Renamed D R (t.value p))
    (hop' : (s.value o').Renamed D R (t.value p')) (ho' : s.IsFunction o') :
    (o = o' ↔ p = p') ∨ s.IsFunction o := by
  by_cases ho : o = o'
  · exact .inr (ho ▸ ho')
  · by_cases hp : p = p'
    · refine .inr ((isFunction_congr hop).mpr ?_)
      rw [hp]
      exact (isFunction_congr hop').mp ho'
    · exact .inl (iff_of_false ho hp)

/-- Two stores in which paired objects have the same values up to pairs. -/
structure Renamed (D : Decl → Prop) (R : Pairing) (s t : Store) : Prop where
  has : ∀ {o p}, R o p → s.Has o ∧ t.Has p
  value : ∀ {o p}, R o p → (s.value o).Renamed D R (t.value p)
  unique : ∀ {o p o' p'}, R o p → R o' p' → (o = o' ↔ p = p') ∨ s.IsFunction o
  left : s.Orderly
  right : t.Orderly

namespace Renamed

theorem isFunction (h : s.Renamed D R t) (hop : R o p) : s.IsFunction o ↔ t.IsFunction p :=
  isFunction_congr (h.value hop)

/-! ### Trees and equality -/

theorem unfold (h : s.Renamed D R t) {k : Nat} (hop : R o p) : s.unfold k o = t.unfold k p := by
  induction k generalizing o p with
  | zero => rfl
  | succ k ih =>
    have hv := h.value hop
    generalize hs : s.value o = v at hv
    generalize ht : t.value p = w at hv
    simp only [Store.unfold, hs, ht]
    cases hv with
    | atom => rfl
    | tuple hes | vector hes => simp only [mapM_congr_forall₂ hes fun _ _ => ih]

/-- Paired objects mean the same, however many other objects there are. -/
theorem tree? (h : s.Renamed D R t) (hop : R o p) : s.tree? o = t.tree? p := by
  obtain ⟨ho, hp⟩ := h.has hop
  apply Option.ext
  intro x
  rw [h.left.closed.tree?_eq_some_iff ho, h.right.closed.tree?_eq_some_iff hp]
  exact exists_congr fun k => by rw [h.unfold hop]

theorem exists_tree (h : s.Renamed D R t) (hop : R o p) :
    ∃ x, s.tree? o = some x ∧ t.tree? p = some x ∧ x.Every (Atom.Allowed D) := by
  obtain ⟨x, hx⟩ := h.left.acyclic.exists_tree h.left.closed (h.has hop).1
  refine ⟨x, hx, h.tree? hop ▸ hx, ?_⟩
  refine every_of_unfold (s := s) (G := fun o => ∃ p, R o p) (fun o ⟨p, hop⟩ e he => ?_)
    (fun o a ⟨p, hop⟩ ha => ?_) ⟨p, hop⟩ hx
  · obtain ⟨f, -, hef⟩ :=
      exists_of_forall₂_left (h.value hop).elements (Array.mem_toList_iff.mpr he)
    exact ⟨f, hef⟩
  · have hv := h.value hop
    rw [ha] at hv
    generalize t.value p = w at hv
    cases hv with
    | atom ha => exact ha

theorem valuesEqual {same same' : ObjectId → ObjectId → Bool} {v v' w w' : Value}
    (hv : v.Renamed D R v') (hw : w.Renamed D R w')
    (hsame : ∀ a b c d, R a b → R c d → same a c = same' b d) :
    Store.valuesEqual same v w = Store.valuesEqual same' v' w' := by
  cases hv with
  | atom => cases hw <;> rfl
  | tuple hes =>
    cases hw with
    | tuple hfs => exact isEqv_congr_forall₂ hes hfs hsame
    | atom | vector => rfl
  | vector hes =>
    cases hw with
    | vector hfs => exact isEqv_congr_forall₂ hes hfs hsame
    | atom | tuple => rfl

theorem equalTo (h : s.Renamed D R t) {k : Nat} {o' p' : ObjectId} (hop : R o p) (hop' : R o' p') :
    s.equalTo k o o' = t.equalTo k p p' := by
  induction k generalizing o p o' p' with
  | zero => rfl
  | succ k ih =>
    have hvalues : Store.valuesEqual (s.equalTo k) (s.value o) (s.value o') =
        Store.valuesEqual (t.equalTo k) (t.value p) (t.value p') :=
      valuesEqual (h.value hop) (h.value hop') fun _ _ _ _ => ih
    rcases h.unique hop hop' with hsame | hfun
    · have : (o == o') = (p == p') := by simp [hsame]
      simp only [Store.equalTo, this, hvalues]
    · -- one function may have two objects, but they are equal
      obtain ⟨d, hd⟩ := hfun
      obtain ⟨e, he⟩ := (h.isFunction hop).mp ⟨d, hd⟩
      have hde := h.value hop
      rw [hd, he] at hde
      cases hde
      have hself : ∀ {u : Store} {a b : ObjectId}, u.value a = .atom (.function d) →
          (a == b || Store.valuesEqual (u.equalTo k) (u.value a) (u.value b)) =
            Store.valuesEqual (u.equalTo k) (u.value a) (u.value b) := by
        intro u a b ha
        by_cases hab : a = b
        · subst hab
          have : (Atom.function d == Atom.function d) = true := by
            simp [BEq.beq, Atom.beq]
          simp [ha, Store.valuesEqual, this]
        · simp [hab]
      rw [Store.equalTo, Store.equalTo, hself hd, hself he, hvalues]

theorem objectsEqual (h : s.Renamed D R t) {o' p' : ObjectId} (hop : R o p) (hop' : R o' p') :
    s.objectsEqual o o' = t.objectsEqual p p' := by
  obtain ⟨ho, hp⟩ := h.has hop
  obtain ⟨ho', hp'⟩ := h.has hop'
  rw [Bool.eq_iff_iff, h.left.closed.objectsEqual_iff ho ho',
    h.right.closed.objectsEqual_iff hp hp']
  exact exists_congr fun k => by rw [h.equalTo hop hop']

theorem equalValues (h : s.Renamed D R t) {v v' w w' : Value} (hv : v.Renamed D R v')
    (hw : w.Renamed D R w') : s.equalValues v w = t.equalValues v' w' :=
  valuesEqual hv hw fun _ _ _ _ => h.objectsEqual

end Renamed

/-! ### Changes -/

theorem Closed.not_inside_next (h : s.Closed) (ho : s.Has o) :
    ¬ ReflTransGen s.Contains o s.next := by
  intro hpath
  have hnext : ¬ s.Has s.next := fun hn => Nat.lt_irrefl _ hn.lt_next
  rcases ReflTransGen.cases_tail hpath with heq | ⟨c, -, hc⟩
  · exact hnext (heq ▸ ho)
  · exact hnext (h c _ hc)

theorem contains_push {x : Object} {c : ObjectId} (h : (s.push x).Contains c o) :
    s.Contains c o ∨ c = s.next ∧ o ∈ x.value.elements := by
  rw [Contains, value_push] at h
  split at h
  · next hc => exact .inr ⟨hc, h⟩
  · exact .inl h

theorem Orderly.push {x : Object} (h : s.Orderly) (hx : ∀ e ∈ x.value.elements, s.Has e) :
    (s.push x).Orderly where
  acyclic := h.acyclic.extend (fun _ _ => contains_push) fun _ v ho hv =>
    hv ▸ h.closed.not_inside_next (hx _ ho)
  closed := by
    intro c o ho
    refine has_push.mpr (.inr ?_)
    rcases contains_push ho with ho | ⟨-, ho⟩
    · exact h.closed c o ho
    · exact hx o ho

/-- A vector may get new elements that it is not inside of. -/
theorem Orderly.setVector {es fs : Array ObjectId} (h : s.Orderly) (hv : s.value o = .vector es)
    (hfs : ∀ e ∈ fs, e ∈ es ∨ s.Has e ∧ ¬ ReflTransGen s.Contains e o) :
    (s.setValue o (.vector fs)).Orderly := by
  have hcontains : ∀ c e, (s.setValue o (.vector fs)).Contains c e →
      s.Contains c e ∨ c = o ∧ s.Has e ∧ ¬ ReflTransGen s.Contains e o := by
    intro c e he
    rw [Contains, value_setValue] at he
    split at he
    · next hc =>
      rcases hfs e he with hold | hnew
      · exact .inl (by simpa [Contains, hc.1, hv, Value.elements] using hold)
      · exact .inr ⟨hc.1, hnew⟩
    · exact .inl he
  constructor
  · exact h.acyclic.extend (V := (· = o)) (O := fun e => s.Has e ∧ ¬ ReflTransGen s.Contains e o)
      hcontains fun e v he hv => hv ▸ he.2
  · intro c e he
    rw [has_setValue]
    rcases hcontains c e he with hold | ⟨-, hhas, -⟩
    · exact h.closed c e hold
    · exact hhas

/-- Two stores that differ at most in counts and slots. -/
structure Recounts (s t : Store) : Prop where
  next : t.next = s.next
  has : ∀ o, t.Has o ↔ s.Has o
  value : ∀ o, t.value o = s.value o

theorem Recounts.refl : Recounts s s := ⟨rfl, fun _ => Iff.rfl, fun _ => rfl⟩

theorem Recounts.trans {u : Store} (h : Recounts s t) (h' : Recounts t u) : Recounts s u :=
  ⟨h'.next.trans h.next, fun o => (h'.has o).trans (h.has o),
    fun o => (h'.value o).trans (h.value o)⟩

theorem Orderly.recounts (h : s.Orderly) (hst : Recounts s t) : t.Orderly where
  acyclic := h.acyclic.mono fun c o ho => by rwa [Contains, hst.value] at ho
  closed := fun c o ho => (hst.has o).mpr (h.closed c o (by rwa [Contains, hst.value] at ho))

namespace Renamed

theorem push {x y : Object} (h : s.Renamed D R t) (hxy : x.value.Renamed D R y.value) :
    (s.push x).Renamed D (R.insert s.next t.next) (t.push y) := by
  have hnew : ∀ {u : Store} {a : ObjectId}, u.Has a → a ≠ u.next :=
    fun ha => Nat.ne_of_lt ha.lt_next
  refine ⟨?_, ?_, ?_, ?_, ?_⟩
  · rintro a b (hab | ⟨rfl, rfl⟩)
    · exact ⟨has_push.mpr (.inr (h.has hab).1), has_push.mpr (.inr (h.has hab).2)⟩
    · exact ⟨has_push.mpr (.inl rfl), has_push.mpr (.inl rfl)⟩
  · rintro a b (hab | ⟨rfl, rfl⟩)
    · rw [value_push, value_push, if_neg (hnew (h.has hab).1), if_neg (hnew (h.has hab).2)]
      exact (h.value hab).mono Pairing.le_insert
    · rw [value_push, value_push, if_pos rfl, if_pos rfl]
      exact hxy.mono Pairing.le_insert
  · rintro a b a' b' (hab | ⟨rfl, rfl⟩) (hab' | ⟨rfl, rfl⟩)
    · refine (h.unique hab hab').imp_right fun hfun => ?_
      rwa [IsFunction, value_push, if_neg (hnew (h.has hab).1)]
    · exact .inl (iff_of_false (hnew (h.has hab).1) (hnew (h.has hab).2))
    · exact .inl (iff_of_false (hnew (h.has hab').1).symm (hnew (h.has hab').2).symm)
    · exact .inl (iff_of_true rfl rfl)
  · refine h.left.push fun e he => ?_
    obtain ⟨f, -, hef⟩ := exists_of_forall₂_left hxy.elements (Array.mem_toList_iff.mpr he)
    exact (h.has hef).1
  · refine h.right.push fun e he => ?_
    obtain ⟨f, -, hef⟩ := exists_of_forall₂_right hxy.elements (Array.mem_toList_iff.mpr he)
    exact (h.has hef).2

/-- A vector and the one that it stands for get elements that stand for each other. -/
theorem setVector {es fs es' fs' : Array ObjectId} (h : s.Renamed D R t) (hop : R o p)
    (hes : s.value o = .vector es) (hfs : t.value p = .vector fs)
    (hall : List.Forall₂ R es'.toList fs'.toList)
    (hleft : ∀ e ∈ es', e ∈ es ∨ ¬ ReflTransGen s.Contains e o)
    (hright : ∀ e ∈ fs', e ∈ fs ∨ ¬ ReflTransGen t.Contains e p) :
    (s.setValue o (.vector es')).Renamed D R (t.setValue p (.vector fs')) := by
  have hfun : ∀ {a}, s.IsFunction a → a ≠ o := by
    rintro a ⟨d, hd⟩ rfl
    rw [hes] at hd
    cases hd
  have hpair : ∀ {a b}, R a b → (a = o ↔ b = p) := by
    intro a b hab
    rcases h.unique hop hab with hsame | hf
    · exact eq_comm.trans (hsame.trans eq_comm)
    · exact absurd rfl (hfun hf)
  refine ⟨fun hab => ?_, fun {a b} hab => ?_, fun {a b a' b'} hab hab' => ?_, ?_, ?_⟩
  · rw [has_setValue, has_setValue]
    exact h.has hab
  · rw [value_setValue, value_setValue]
    by_cases ha : a = o
    · rw [if_pos ⟨ha, (h.has hop).1⟩, if_pos ⟨(hpair hab).mp ha, (h.has hop).2⟩]
      exact .vector hall
    · rw [if_neg fun hn => ha hn.1, if_neg fun hn => ha ((hpair hab).mpr hn.1)]
      exact h.value hab
  · refine (h.unique hab hab').imp_right fun hf => ?_
    rw [IsFunction, value_setValue, if_neg fun hn => hfun hf hn.1]
    exact hf
  · refine h.left.setVector hes fun e he => (hleft e he).imp_right fun hn => ⟨?_, hn⟩
    obtain ⟨f, -, hef⟩ := exists_of_forall₂_left hall (Array.mem_toList_iff.mpr he)
    exact (h.has hef).1
  · refine h.right.setVector hfs fun e he => (hright e he).imp_right fun hn => ⟨?_, hn⟩
    obtain ⟨f, -, hef⟩ := exists_of_forall₂_right hall (Array.mem_toList_iff.mpr he)
    exact (h.has hef).2

/-- The objects there have kept their values. -/
theorem congr {s' t' : Store} (h : s.Renamed D R t)
    (hs : ∀ o, s.Has o → s'.Has o ∧ s'.value o = s.value o)
    (ht : ∀ p, t.Has p → t'.Has p ∧ t'.value p = t.value p) (hleft : s'.Orderly)
    (hright : t'.Orderly) :
    s'.Renamed D R t' := by
  refine ⟨fun hop => ?_, fun hop => ?_, fun hop hop' => ?_, hleft, hright⟩
  · exact ⟨(hs _ (h.has hop).1).1, (ht _ (h.has hop).2).1⟩
  · rw [(hs _ (h.has hop).1).2, (ht _ (h.has hop).2).2]
    exact h.value hop
  · rw [IsFunction, (hs _ (h.has hop).1).2]
    exact h.unique hop hop'

theorem recounts {s' t' : Store} (h : s.Renamed D R t) (hs : Recounts s s') (ht : Recounts t t') :
    s'.Renamed D R t' :=
  h.congr (fun o ho => ⟨(hs.has o).mpr ho, hs.value o⟩)
    (fun p hp => ⟨(ht.has p).mpr hp, ht.value p⟩)
    (h.left.recounts hs) (h.right.recounts ht)

/-- Two objects of one function may be paired. -/
theorem meet {d : Decl} (h : s.Renamed D R t) (hd : D d) (ho : s.value o = .atom (.function d))
    (hp : t.value p = .atom (.function d)) : s.Renamed D (R.insert o p) t := by
  have hop : (s.value o).Renamed D R (t.value p) := by
    rw [ho, hp]
    exact .atom hd
  refine ⟨?_, ?_, ?_, h.left, h.right⟩
  · rintro a b (hab | ⟨rfl, rfl⟩)
    · exact h.has hab
    · exact ⟨IsFunction.has ⟨d, ho⟩, IsFunction.has ⟨d, hp⟩⟩
  · rintro a b (hab | ⟨rfl, rfl⟩)
    · exact (h.value hab).mono Pairing.le_insert
    · exact hop.mono Pairing.le_insert
  · rintro a b a' b' (hab | ⟨rfl, rfl⟩) (hab' | ⟨rfl, rfl⟩)
    · exact h.unique hab hab'
    · exact unique_of_isFunction (h.value hab) hop ⟨d, ho⟩
    · exact .inr ⟨d, ho⟩
    · exact .inr ⟨d, ho⟩

end Renamed

/-- Nothing inside an object is known, functions excepted. -/
def Apart (s : Store) (known : ObjectId → Prop) (o : ObjectId) : Prop :=
  ∀ q, ReflTransGen s.Contains o q → known q → s.IsFunction q

/-- There are new objects, which have only new objects inside. -/
structure Adds (s t : Store) : Prop where
  next : s.next ≤ t.next
  has : ∀ {o}, s.Has o → t.Has o
  value : ∀ {o}, s.Has o → t.value o = s.value o
  new : ∀ {c o}, s.next ≤ c → t.Contains c o → s.next ≤ o

namespace Adds

theorem refl : Adds s s :=
  ⟨Nat.le_refl _, id, fun _ => rfl,
    fun hc ho => absurd (has_of_mem_elements ho).lt_next (Nat.not_lt.mpr hc)⟩

theorem push {x : Object} (h : Adds s t) (hx : ∀ e ∈ x.value.elements, s.next ≤ e) :
    Adds s (t.push x) where
  next := Nat.le_trans h.next (by simp)
  has := fun ho => has_push.mpr (.inr (h.has ho))
  value := fun ho => by
    rw [value_push, if_neg (Nat.ne_of_lt (h.has ho).lt_next)]
    exact h.value ho
  new := fun hc ho => (contains_push ho).elim (h.new hc) fun ho => hx _ ho.2

theorem apart {known : ObjectId → Prop} (h : Adds s t) (ho : s.next ≤ o)
    (hknown : ∀ q, known q → s.Has q) : t.Apart known o := by
  intro q hq hk
  have hnew : s.next ≤ q := by
    clear hk
    induction hq with
    | refl => exact ho
    | tail _ hstep ih => exact h.new ih hstep
  exact absurd (hknown q hk).lt_next (Nat.not_lt.mpr hnew)

end Adds

/-- What an evaluation that knows some objects does to all of them: it makes new ones, and changes
no atom and nothing that it does not know. -/
structure Grows (known : ObjectId → Prop) (s t : Store) : Prop where
  next : s.next ≤ t.next
  has : ∀ {o}, s.Has o → t.Has o
  atom : ∀ {o a}, s.Has o → s.value o = .atom a → t.value o = .atom a
  kept : ∀ {o}, s.Has o → ¬ known o → t.value o = s.value o

namespace Grows

variable {known : ObjectId → Prop}

theorem refl : Grows known s s := ⟨Nat.le_refl _, id, fun _ => id, fun _ _ => rfl⟩

theorem isFunction (h : Grows known s t) (ho : s.IsFunction o) : t.IsFunction o := by
  obtain ⟨d, hd⟩ := ho
  exact ⟨d, h.atom (IsFunction.has ⟨d, hd⟩) hd⟩

theorem push {x : Object} : Grows known s (s.push x) := by
  have hvalue : ∀ {o}, s.Has o → (s.push x).value o = s.value o := fun ho => by
    rw [value_push, if_neg (Nat.ne_of_lt ho.lt_next)]
  exact ⟨by simp, fun ho => has_push.mpr (.inr ho), fun ho ha => (hvalue ho).trans ha,
    fun ho _ => hvalue ho⟩

theorem setVector {es fs : Array ObjectId} (hv : s.value o = .vector es) (ho : known o) :
    Grows known s (s.setValue o (.vector fs)) := by
  have hvalue : ∀ {p}, p ≠ o → (s.setValue o (.vector fs)).value p = s.value p := fun hp => by
    rw [value_setValue, if_neg fun hn => hp hn.1]
  refine ⟨by simp, has_setValue.mpr, fun {p a} _ ha => ?_, fun {p} _ hp => hvalue ?_⟩
  · refine (hvalue ?_).trans ha
    rintro rfl
    rw [hv] at ha
    cases ha
  · rintro rfl
    exact hp ho

theorem mono {known' : ObjectId → Prop} (h : Grows known s t) (hle : ∀ o, known o → known' o) :
    Grows known' s t :=
  ⟨h.next, h.has, h.atom, fun ho hn => h.kept ho fun hk => hn (hle _ hk)⟩

/-- An object that becomes known on the way is a function. -/
theorem trans {known' : ObjectId → Prop} {u : Store} (h : Grows known s t) (h' : Grows known' t u)
    (hmet : ∀ {o}, s.Has o → ¬ known o → known' o → t.IsFunction o) : Grows known s u := by
  refine ⟨Nat.le_trans h.next h'.next, fun ho => h'.has (h.has ho),
    fun ho ha => h'.atom (h.has ho) (h.atom ho ha), fun {o} ho hknown => ?_⟩
  have hfirst := h.kept ho hknown
  by_cases hk : known' o
  · obtain ⟨d, hd⟩ := hmet ho hknown hk
    rw [h'.atom (h.has ho) hd, ← hfirst, hd]
  · exact (h'.kept (h.has ho) hk).trans hfirst

/-- What is inside an object stays as it was, if nothing of it was known but functions. -/
theorem inside {q : ObjectId} (h : Grows known s t) (hclosed : s.Closed) (ho : s.Has o)
    (hapart : s.Apart known o) (hq : ReflTransGen t.Contains o q) :
    ReflTransGen s.Contains o q ∧ s.Has q := by
  induction hq with
  | refl => exact ⟨.refl, ho⟩
  | @tail b c _ hstep ih =>
    obtain ⟨hpath, hhas⟩ := ih
    have hvalue : t.value b = s.value b := by
      by_cases hknown : known b
      · obtain ⟨d, hd⟩ := hapart b hpath hknown
        exact (h.atom hhas hd).trans hd.symm
      · exact h.kept hhas hknown
    rw [Contains, hvalue] at hstep
    exact ⟨.tail hpath hstep, hclosed _ _ hstep⟩

theorem adds (h : Adds s t) : Grows known s t :=
  ⟨h.next, h.has, fun ho ha => (h.value ho).trans ha, fun ho _ => h.value ho⟩

theorem recounts (h : Recounts s t) : Grows known s t :=
  ⟨Nat.le_of_eq h.next.symm, (h.has _).mpr, fun _ ha => (h.value _).trans ha, fun _ _ => h.value _⟩

end Grows

end Store

/-- A tree is built of new objects. -/
theorem Heap.adds_build {P : Atom → Prop} (h : Heap) (x : Tree) (hx : x.Every P) :
    h.store.Adds (h.build x).2.store ∧ h.store.next ≤ (h.build x).1 :=
  build_induct (M := fun k => h.store.Adds k.store) (R := (h.store.next ≤ ·)) (P := P)
    (fun _ _ hk hv _ => ⟨hk.push hv, hk.next⟩) h x .refl hx

theorem Heap.adds_buildAll {P : Atom → Prop} (h : Heap) (xs : List Tree) (hxs : Tree.EveryOf P xs) :
    h.store.Adds (h.buildAll #[] xs).2.store ∧ ∀ e ∈ (h.buildAll #[] xs).1, h.store.next ≤ e :=
  buildAll_induct (M := fun k => h.store.Adds k.store) (R := (h.store.next ≤ ·)) (P := P)
    (fun _ _ hk hv _ => ⟨hk.push hv, hk.next⟩) h #[] xs .refl hxs (by simp)

open Store

/-- How a pairing goes on along two evaluations: new pairs are of new objects, or of functions. -/
structure Pairing.Grows (R : Pairing) (s t : Store) (R' : Pairing) (s' t' : Store) : Prop where
  le : R ≤ R'
  new : ∀ {o p}, R' o p → R o p ∨ (s.next ≤ o ∧ t.next ≤ p) ∨ s'.IsFunction o ∧ t'.IsFunction p
  left : s.Grows (fun o => ∃ p, R o p) s'
  right : t.Grows (fun p => ∃ o, R o p) t'

namespace Pairing.Grows

variable {D : Decl → Prop} {R R' R'' : Pairing} {s t s' t' s'' t'' : Store} {o p : ObjectId}

theorem refl : Grows R s t R s t := ⟨fun _ _ => id, .inl, .refl, .refl⟩

theorem push {x y : Object} : Grows R s t (R.insert s.next t.next) (s.push x) (t.push y) where
  le := le_insert
  new := by
    rintro o p (hop | ⟨rfl, rfl⟩)
    · exact .inl hop
    · exact .inr (.inl ⟨Nat.le_refl _, Nat.le_refl _⟩)
  left := .push
  right := .push

theorem setVector {es fs es' fs' : Array ObjectId} (hop : R o p) (hes : s.value o = .vector es)
    (hfs : t.value p = .vector fs) :
    Grows R s t R (s.setValue o (.vector es')) (t.setValue p (.vector fs')) :=
  ⟨fun _ _ => id, .inl, .setVector hes ⟨p, hop⟩, .setVector hfs ⟨o, hop⟩⟩

theorem meet (hs : s.Grows (fun o => ∃ p, R o p) s') (ht : t.Grows (fun p => ∃ o, R o p) t')
    (ho : s'.IsFunction o) (hp : t'.IsFunction p) : Grows R s t (R.insert o p) s' t' where
  le := le_insert
  new := by
    rintro a b (hab | ⟨rfl, rfl⟩)
    · exact .inl hab
    · exact .inr (.inr ⟨ho, hp⟩)
  left := hs
  right := ht

theorem trans (h : Grows R s t R' s' t') (h' : Grows R' s' t' R'' s'' t'') :
    Grows R s t R'' s'' t'' where
  le := fun o p hop => h'.le o p (h.le o p hop)
  new := by
    intro o p hop
    rcases h'.new hop with hop | ⟨ho, hp⟩ | hfun
    · rcases h.new hop with hop | hnew | ⟨ho, hp⟩
      · exact .inl hop
      · exact .inr (.inl hnew)
      · exact .inr (.inr ⟨h'.left.isFunction ho, h'.right.isFunction hp⟩)
    · exact .inr (.inl ⟨Nat.le_trans h.left.next ho, Nat.le_trans h.right.next hp⟩)
    · exact .inr (.inr hfun)
  left := by
    refine h.left.trans h'.left ?_
    rintro o ho hknown ⟨p, hop⟩
    rcases h.new hop with hop | ⟨hnew, -⟩ | ⟨hfun, -⟩
    · exact absurd ⟨p, hop⟩ hknown
    · exact absurd ho.lt_next (Nat.not_lt.mpr hnew)
    · exact hfun
  right := by
    refine h.right.trans h'.right ?_
    rintro p hp hknown ⟨o, hop⟩
    rcases h.new hop with hop | ⟨-, hnew⟩ | ⟨-, hfun⟩
    · exact absurd ⟨o, hop⟩ hknown
    · exact absurd hp.lt_next (Nat.not_lt.mpr hnew)
    · exact hfun

end Pairing.Grows

/-! ### Objects that an evaluation does not know -/

namespace Store.Renamed

variable {D : Decl → Prop} {R S R' : Pairing} {s t s' t' : Store} {o p : ObjectId}

/-- Pairs that the evaluations did not know have kept their values. -/
theorem kept (h : s.Renamed D S t) (hle : R ≤ S) (hgrow : R.Grows s t R' s' t') (hop : S o p)
    (hnew : ¬ R o p) : s'.value o = s.value o ∧ t'.value p = t.value p := by
  obtain ⟨ho, hp⟩ := h.has hop
  by_cases hfun : s.IsFunction o
  · obtain ⟨d, hd⟩ := hfun
    obtain ⟨e, he⟩ := (h.isFunction hop).mp ⟨d, hd⟩
    exact ⟨(hgrow.left.atom ho hd).trans hd.symm, (hgrow.right.atom hp he).trans he.symm⟩
  · constructor
    · refine hgrow.left.kept ho ?_
      rintro ⟨q, hoq⟩
      cases ((h.unique hop (hle _ _ hoq)).resolve_right hfun).mp rfl
      exact hnew hoq
    · refine hgrow.right.kept hp ?_
      rintro ⟨q, hqp⟩
      cases ((h.unique hop (hle _ _ hqp)).resolve_right hfun).mpr rfl
      exact hnew hqp

/-- Evaluations that know some of the pairs get along with the others. -/
theorem frame (h : s.Renamed D S t) (hle : R ≤ S) (hgrow : R.Grows s t R' s' t')
    (h' : s'.Renamed D R' t') : s'.Renamed D (S ⊔ R') t' := by
  have hvalue : ∀ {o p}, (S ⊔ R') o p → (s'.value o).Renamed D (S ⊔ R') (t'.value p) := by
    rintro o p (hop | hop)
    · by_cases hold : R o p
      · exact (h'.value (hgrow.le _ _ hold)).mono le_sup_right
      · obtain ⟨ho, hp⟩ := h.kept hle hgrow hop hold
        rw [ho, hp]
        exact (h.value hop).mono le_sup_left
    · exact (h'.value hop).mono le_sup_right
  have hmixed : ∀ {o p o' p'}, S o p → R' o' p' → (o = o' ↔ p = p') ∨ s'.IsFunction o := by
    intro o p o' p' hop hop'
    obtain ⟨ho, hp⟩ := h.has hop
    rcases hgrow.new hop' with hold | ⟨ho', hp'⟩ | ⟨ho', -⟩
    · exact (h.unique hop (hle _ _ hold)).imp_right hgrow.left.isFunction
    · exact .inl (iff_of_false (Nat.ne_of_lt (Nat.lt_of_lt_of_le ho.lt_next ho'))
        (Nat.ne_of_lt (Nat.lt_of_lt_of_le hp.lt_next hp')))
    · exact unique_of_isFunction (hvalue (.inl hop)) (hvalue (.inr hop')) ho'
  refine ⟨?_, hvalue, ?_, h'.left, h'.right⟩
  · rintro o p (hop | hop)
    · exact ⟨hgrow.left.has (h.has hop).1, hgrow.right.has (h.has hop).2⟩
    · exact h'.has hop
  · rintro o p o' p' (hop | hop) (hop' | hop')
    · exact (h.unique hop hop').imp_right hgrow.left.isFunction
    · exact hmixed hop hop'
    · rcases hmixed hop' hop with hiff | ho'
      · exact .inl (eq_comm.trans (hiff.trans eq_comm))
      · exact unique_of_isFunction (hvalue (.inr hop)) (hvalue (.inl hop')) ho'
    · exact h'.unique hop hop'

end Store.Renamed

theorem Pairing.Grows.frame {R S R' : Pairing} {s t s' t' : Store}
    (h : R.Grows s t R' s' t') (hle : R ≤ S) :
    S.Grows s t (S ⊔ R') s' t' where
  le := le_sup_left
  new := by
    rintro o p (hop | hop)
    · exact .inl hop
    · exact (h.new hop).imp_left (hle o p)
  left := h.left.mono fun _ ⟨p, hop⟩ => ⟨p, hle _ p hop⟩
  right := h.right.mono fun _ ⟨o, hop⟩ => ⟨o, hle o _ hop⟩

end Scripting
