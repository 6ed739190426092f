import Mathlib.Data.Finset.Card
import Mathlib.Data.Finset.Prod
import Mathlib.Data.Fintype.Card
import Mathlib.Data.Fintype.EquivFin
import Mathlib.Data.List.Forall2
import Mathlib.Logic.Relation
import Mathlib.Order.Monotone.Basic
import Mathlib.Tactic.Common
import Scripting.Proofs.Store.Reaping

/-! Containment between objects. Where no object is inside itself every object has a tree, and the
bounds on the depth of walks do not show. -/
namespace Scripting

open Relation

namespace Store

variable {s t : Store} {o : ObjectId}

/-- The second object is inside the first. -/
def Contains (s : Store) (c o : ObjectId) : Prop := o ∈ (s.value c).elements

/-- No object is inside itself, at any depth. -/
def Acyclic (s : Store) : Prop := ∀ o, ¬ TransGen s.Contains o o

/-- Whatever is inside an object is there. -/
def Closed (s : Store) : Prop := ∀ c o, s.Contains c o → s.Has o

namespace Acyclic

theorem mono (h : s.Acyclic) (hle : ∀ c o, t.Contains c o → s.Contains c o) : t.Acyclic :=
  fun o ho => h o (TransGen.mono hle o o ho)

/-- There are only so many objects, so no path goes on for ever. -/
theorem induction_of {P : ObjectId → Prop} (around : ObjectId → ObjectId → Prop)
    (hirrefl : ∀ o, ¬ TransGen around o o)
    (hstep : ∀ o, s.Has o → (∀ c, s.Has c → around c o → P c) → P o) : ∀ o, s.Has o → P o := by
  let r (c o : Fin s.next) : Prop := TransGen around c o
  have : IsTrans (Fin s.next) r := ⟨fun _ _ _ => .trans⟩
  have : Std.Irrefl r := ⟨fun o => hirrefl o⟩
  have hwf : WellFounded r := Finite.wellFounded_of_trans_of_irrefl r
  have hall : ∀ o : Fin s.next, s.Has o → P o := by
    intro o
    induction o using hwf.induction with
    | h o ih =>
      intro ho
      apply hstep o ho
      intro c hc hin
      exact ih ⟨c, hc.lt_next⟩ (.single hin) hc
  exact fun o ho => hall ⟨o, ho.lt_next⟩ ho

/-- What holds of an object whenever it holds of all objects around it holds of all objects. -/
theorem induction {P : ObjectId → Prop} (h : s.Acyclic)
    (hstep : ∀ o, s.Has o → (∀ c, s.Has c → s.Contains c o → P c) → P o) : ∀ o, s.Has o → P o :=
  induction_of s.Contains h hstep

/-- What holds of an object whenever it holds of all objects inside it holds of all objects. -/
theorem induction_inside {P : ObjectId → Prop} (h : s.Acyclic)
    (hstep : ∀ o, s.Has o → (∀ e, s.Has e → s.Contains o e → P e) → P o) : ∀ o, s.Has o → P o :=
  induction_of (Function.swap s.Contains) (fun o ho => h o (transGen_swap.mp ho)) hstep

/-- Objects may be put inside others, if none of the others is inside one of them. -/
theorem extend {V O : ObjectId → Prop} (h : s.Acyclic)
    (hnew : ∀ c o, t.Contains c o → s.Contains c o ∨ V c ∧ O o)
    (hfree : ∀ o v, O o → V v → ¬ ReflTransGen s.Contains o v) : t.Acyclic := by
  have hup : ∀ {o v}, ReflTransGen t.Contains o v → V v →
      ∃ w, V w ∧ ReflTransGen s.Contains o w := by
    intro o v ho hv
    induction ho using ReflTransGen.head_induction_on with
    | refl => exact ⟨v, hv, .refl⟩
    | @head a c hac _ ih =>
      rcases hnew a c hac with hold | ⟨ha, -⟩
      · obtain ⟨w, hw, hcw⟩ := ih
        exact ⟨w, hw, .head hold hcw⟩
      · exact ⟨a, ha, .refl⟩
  have hpath : ∀ {a b}, TransGen t.Contains a b → TransGen s.Contains a b ∨
      (∃ v, V v ∧ ReflTransGen t.Contains a v) ∧ ∃ o, O o ∧ ReflTransGen t.Contains o b := by
    intro a b hab
    induction hab with
    | single hab => exact (hnew _ _ hab).imp .single fun ⟨ha, hb⟩ => ⟨⟨a, ha, .refl⟩, _, hb, .refl⟩
    | @tail b c hab hbc ih =>
      rcases ih with hold | ⟨hv, o, ho, hob⟩
      · rcases hnew b c hbc with hbc | ⟨hb, hc⟩
        · exact .inl (.tail hold hbc)
        · exact .inr ⟨⟨b, hb, hab.to_reflTransGen⟩, c, hc, .refl⟩
      · exact .inr ⟨hv, o, ho, .tail hob hbc⟩
  -- a new way round has a new piece, and goes on from its end to its beginning
  intro a ha
  rcases hpath ha with hold | ⟨⟨v, hv, hav⟩, o, ho, hoa⟩
  · exact h a hold
  · obtain ⟨w, hw, how⟩ := hup (hoa.trans hav) hv
    exact hfree o w ho hw how

end Acyclic

end Store

/-! ### Depth -/

/-- Levels that only grow, and grow no more once they stand still, are full after as many steps as
there are things. -/
theorem full_of_card_le {α : Type} {S : Finset α} {P : Nat → α → Prop} {n k : Nat} {a : α}
    (hmono : ∀ k, ∀ a ∈ S, P k a → P (k + 1) a)
    (hstep : ∀ k, (∀ a ∈ S, P (k + 1) a → P k a) → ∀ a ∈ S, P (k + 2) a → P (k + 1) a)
    (hn : S.card ≤ n) (ha : a ∈ S) (h : P k a) : P n a := by
  classical
  have hsub : ∀ i j, i ≤ j → S.filter (P i) ⊆ S.filter (P j) := by
    intro i j hij
    induction hij with
    | refl => exact fun _ => id
    | step _ ih =>
      intro b hb
      have hin := ih hb
      rw [Finset.mem_filter] at hin ⊢
      exact ⟨hin.1, hmono _ b hin.1 hin.2⟩
  have hcard : Monotone fun i => (S.filter (P i)).card :=
    fun i j hij => Finset.card_le_card (hsub i j hij)
  have hstop := Nat.stabilises_of_monotone hcard (b := S.card) (n := max n k)
    (fun i => Finset.card_filter_le S (P i)) (fun i hi => ?_)
      (Nat.le_trans hn (Nat.le_max_left n k))
  · have hfull := Finset.eq_of_subset_of_card_le (hsub n (max n k) (Nat.le_max_left n k))
      (Nat.le_trans (Nat.le_of_eq hstop) (hcard hn))
    have hin : a ∈ S.filter (P n) :=
      hfull ▸ hsub k (max n k) (Nat.le_max_right n k) (Finset.mem_filter.mpr ⟨ha, h⟩)
    exact (Finset.mem_filter.mp hin).2
  · have hsame := Finset.eq_of_subset_of_card_le (hsub i (i + 1) (Nat.le_succ i))
      (Nat.le_of_eq hi.symm)
    have hback : ∀ b ∈ S, P (i + 1) b → P i b := fun b hb hP =>
      (Finset.mem_filter.mp (hsame ▸ Finset.mem_filter.mpr ⟨hb, hP⟩ : b ∈ S.filter (P i))).2
    refine congrArg Finset.card (Finset.Subset.antisymm (hsub _ _ (Nat.le_succ _)) fun b hb => ?_)
    rw [Finset.mem_filter] at hb ⊢
    exact ⟨hb.1, hstep i hback b hb.1 hb.2⟩

theorem mapM_eq_some_iff {α β : Type} {f : α → Option β} {l : List α} {k : List β} :
    l.mapM f = some k ↔ List.Forall₂ (fun a b => f a = some b) l k := by
  induction l generalizing k with
  | nil => simp [eq_comm]
  | cons a l ih =>
    simp only [List.mapM_cons, Option.bind_eq_bind, Option.bind_eq_some_iff, Option.pure_def,
      Option.some.injEq, List.forall₂_cons_left_iff, ih]
    tauto

theorem exists_mapM {α β : Type} {f : α → Option β} {l : List α} (h : ∀ a ∈ l, ∃ b, f a = some b) :
    ∃ k, l.mapM f = some k := by
  induction l with
  | nil => exact ⟨[], rfl⟩
  | cons a l ih =>
    obtain ⟨b, hb⟩ := h a (by simp)
    obtain ⟨k, hk⟩ := ih fun x hx => h x (by simp [hx])
    exact ⟨b :: k, by simp [List.mapM_cons, hb, hk]⟩

namespace Store

variable {s : Store} {a b o : ObjectId} {x : Tree} {k n : Nat}

/-- One level of a tree. -/
theorem unfold_succ_iff :
    s.unfold (k + 1) o = some x ↔
      (∃ a, s.value o = .atom a ∧ .atom a = x) ∨
      (∃ es xs, s.value o = .tuple es ∧
        List.Forall₂ (fun e y => s.unfold k e = some y) es.toList xs ∧ .tuple xs = x) ∨
      (∃ es xs, s.value o = .vector es ∧
        List.Forall₂ (fun e y => s.unfold k e = some y) es.toList xs ∧ .vector xs = x) := by
  simp only [unfold]
  cases s.value o with
  | atom a => simp
  | tuple es | vector es => simp [mapM_eq_some_iff]

theorem unfold_succ (h : s.unfold k o = some x) : s.unfold (k + 1) o = some x := by
  induction k generalizing o x with
  | zero => simp [unfold] at h
  | succ k ih =>
    rw [unfold_succ_iff] at h ⊢
    rcases h with hatom | ⟨es, xs, hv, hes, hx⟩ | ⟨es, xs, hv, hes, hx⟩
    · exact .inl hatom
    · exact .inr (.inl ⟨es, xs, hv, hes.imp fun _ _ => ih, hx⟩)
    · exact .inr (.inr ⟨es, xs, hv, hes.imp fun _ _ => ih, hx⟩)

theorem unfold_mono (h : s.unfold k o = some x) (hk : k ≤ n) : s.unfold n o = some x := by
  induction hk with
  | refl => exact h
  | step _ ih => exact unfold_succ ih

theorem exists_unfold_succ (h : ∀ e, s.Contains o e → ∃ y, s.unfold k e = some y) :
    ∃ y, s.unfold (k + 1) o = some y := by
  simp only [unfold, Contains] at h ⊢
  cases hv : s.value o with
  | atom a => exact ⟨.atom a, rfl⟩
  | tuple es | vector es =>
    obtain ⟨ys, hys⟩ :=
      exists_mapM (l := es.toList) fun e he => h e (by simpa [hv, Value.elements] using he)
    exact ⟨_, congrArg (Option.map _) hys⟩

theorem exists_unfold_of_succ {e : ObjectId} (h : s.unfold (k + 1) o = some x)
    (he : s.Contains o e) :
    ∃ y, s.unfold k e = some y := by
  have hmem : ∀ {es : Array ObjectId} {xs : List Tree}, e ∈ es →
      List.Forall₂ (fun e y => s.unfold k e = some y) es.toList xs →
        ∃ y, s.unfold k e = some y := by
    intro es xs hin hall
    obtain ⟨i, hi, rfl⟩ := List.getElem_of_mem (Array.mem_toList_iff.mpr hin)
    exact ⟨_, List.forall₂_iff_get.mp hall |>.2 i hi (hall.length_eq ▸ hi)⟩
  rw [unfold_succ_iff] at h
  rcases h with ⟨a, hv, -⟩ | ⟨es, xs, hv, hes, -⟩ | ⟨es, xs, hv, hes, -⟩
  · simp [Contains, hv, Value.elements] at he
  · exact hmem (by simpa [Contains, hv, Value.elements] using he) hes
  · exact hmem (by simpa [Contains, hv, Value.elements] using he) hes

/-- A tree at any depth is found within the bound. -/
theorem Closed.tree?_eq_some_iff (h : s.Closed) (ho : s.Has o) :
    s.tree? o = some x ↔ ∃ k, s.unfold k o = some x := by
  constructor
  · exact fun hx => ⟨_, hx⟩
  · rintro ⟨k, hk⟩
    obtain ⟨y, hy⟩ : ∃ y, s.unfold s.next o = some y := by
      refine full_of_card_le (S := Finset.range s.next) (P := fun k o => ∃ y, s.unfold k o = some y)
        (fun k o _ ⟨y, hy⟩ => ⟨y, unfold_succ hy⟩) (fun k hback o _ ⟨y, hy⟩ => ?_) (by simp)
        (Finset.mem_range.mpr ho.lt_next) ⟨x, hk⟩
      refine exists_unfold_succ fun e he => hback e (Finset.mem_range.mpr (h o e he).lt_next) ?_
      exact exists_unfold_of_succ hy he
    have hsame := (unfold_mono hy (Nat.le_max_left _ k)).symm.trans
      (unfold_mono hk (Nat.le_max_right _ _))
    exact hy.trans hsame

/-- Where no object is inside itself, every object has a tree. -/
theorem Acyclic.exists_tree (h : s.Acyclic) (hclosed : s.Closed) (ho : s.Has o) :
    ∃ x, s.tree? o = some x := by
  suffices hdeep : ∀ o, s.Has o → ∃ k y, s.unfold k o = some y by
    obtain ⟨k, y, hy⟩ := hdeep o ho
    exact ⟨y, (hclosed.tree?_eq_some_iff ho).mpr ⟨k, hy⟩⟩
  refine h.induction_inside fun o ho ih => ⟨s.next + 1, exists_unfold_succ fun e he => ?_⟩
  obtain ⟨k, y, hy⟩ := ih e (hclosed o e he) he
  exact ⟨y, (hclosed.tree?_eq_some_iff (hclosed o e he)).mpr ⟨k, hy⟩⟩

/-! ### Equality -/

theorem Closed.tree?_vector {ts : List Tree} (h : s.Closed) (ho : s.Has o)
    (hts : s.tree? o = some (.vector ts)) :
    ∃ es, s.value o = .vector es ∧ List.Forall₂ (fun e t => s.tree? e = some t) es.toList ts := by
  obtain ⟨k, hk⟩ := (h.tree?_eq_some_iff ho).mp hts
  cases k with
  | zero => simp [unfold] at hk
  | succ k =>
    obtain ⟨a, -, heq⟩ | ⟨es, xs, -, -, heq⟩ | ⟨es, xs, hv, hes, heq⟩ := unfold_succ_iff.mp hk
    · cases heq
    · cases heq
    · cases heq
      have hinside : ∀ e ∈ es.toList, s.Has e := fun e he =>
        h o e (by rw [Contains, hv]; exact Array.mem_toList_iff.mp he)
      have hboth := (List.forall₂_and_left (p := s.Has) es.toList ts).mpr ⟨hinside, hes⟩
      exact ⟨es, hv, hboth.imp fun e t he => (h.tree?_eq_some_iff he.1).mpr ⟨k, he.2⟩⟩

theorem valuesEqual_mono {same same' : ObjectId → ObjectId → Bool} {v w : Value}
    (h : ∀ a ∈ v.elements, ∀ b ∈ w.elements, same a b = true → same' a b = true)
    (heq : valuesEqual same v w = true) : valuesEqual same' v w = true := by
  have harrays : ∀ {es fs : Array ObjectId},
      (∀ a ∈ es, ∀ b ∈ fs, same a b = true → same' a b = true) →
      es.isEqv fs same = true → es.isEqv fs same' = true := by
    intro es fs h heqv
    rw [Array.isEqv_iff_rel] at heqv ⊢
    obtain ⟨hsize, hall⟩ := heqv
    exact ⟨hsize, fun i hi => h _ (Array.getElem_mem _) _ (Array.getElem_mem _) (hall i hi)⟩
  cases v <;> cases w <;> simp only [valuesEqual, Bool.false_eq_true] at heq ⊢
  · exact heq
  · exact harrays h heq
  · exact harrays h heq

theorem equalTo_succ_iff :
    s.equalTo (k + 1) a b = true ↔
      a = b ∨ valuesEqual (s.equalTo k) (s.value a) (s.value b) = true := by
  simp [equalTo]

theorem equalTo_succ (h : s.equalTo k a b = true) : s.equalTo (k + 1) a b = true := by
  induction k generalizing a b with
  | zero => simp [equalTo] at h
  | succ k ih =>
    rw [equalTo_succ_iff] at h ⊢
    exact h.imp_right (valuesEqual_mono fun _ _ _ _ => ih)

/-- Equality at any depth is found within the bound. -/
theorem Closed.objectsEqual_iff (h : s.Closed) (ha : s.Has a) (hb : s.Has b) :
    s.objectsEqual a b = true ↔ ∃ k, s.equalTo k a b = true := by
  constructor
  · exact fun hab => ⟨_, hab⟩
  · rintro ⟨k, hk⟩
    refine full_of_card_le (S := Finset.range s.next ×ˢ Finset.range s.next)
      (P := fun k x => s.equalTo k x.1 x.2 = true) (a := (a, b))
      (fun k x _ => equalTo_succ) (fun k hback x _ hx => ?_) ?_ ?_ hk
    · rw [equalTo_succ_iff] at hx ⊢
      refine hx.imp_right (valuesEqual_mono fun c hc d hd => hback (c, d) ?_)
      exact Finset.mk_mem_product (Finset.mem_range.mpr (h _ c hc).lt_next)
        (Finset.mem_range.mpr (h _ d hd).lt_next)
    · rw [Finset.card_product, Finset.card_range]
      exact Nat.le_succ _
    · exact Finset.mk_mem_product (Finset.mem_range.mpr ha.lt_next)
        (Finset.mem_range.mpr hb.lt_next)

end Store
end Scripting
