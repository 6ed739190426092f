import Mathlib.Logic.Relation
import Mathlib.Tactic.Common
import Scripting.Proofs.Renaming.Stores
import Scripting.Proofs.Store.Registry

/-! Copies of objects. The objects of a tree that is built get consecutive numbers, elements before
the sequence that holds them, so that no two positions of the tree share an object. -/
namespace Scripting

open Relation

/-- A float that is not a number. -/
def Atom.IsNaN : Atom → Prop
  | .float x => x.isNaN = true
  | _ => False

theorem Float32.beq_self_of_not_isNaN {x : Float32} (h : x.isNaN = false) : (x == x) = true := by
  have hcompare : ∀ y : Float.Model.UnpackedFloat, y.isNaN = false →
      (y.compare y == some .eq) = true := by
    intro y hy
    cases y with
    | notANumber => cases hy
    | infinity s => cases s <;> rfl
    | zero s => rfl
    | finite s m e he =>
      have hsame : (compare e e).then (compare m m) = .eq := by simp
      cases s with
      | negative => exact congrArg (fun order : Ordering => some order.swap == some .eq) hsame
      | positive => exact congrArg (fun order : Ordering => some order == some .eq) hsame
  exact hcompare x.toModel.unpack h

theorem Atom.beq_self {a : Atom} (h : ¬ a.IsNaN) : (a == a) = true := by
  cases a with
  | float x => exact Float32.beq_self_of_not_isNaN (by simpa [IsNaN] using h)
  | _ => simp [BEq.beq, Atom.beq]

namespace Tree

mutual

/-- How many objects a tree is made of. -/
def nodes : Tree → Nat
  | .atom _ => 1
  | .tuple ts | .vector ts => nodesOf ts + 1

def nodesOf : List Tree → Nat
  | [] => 0
  | t :: ts => nodes t + nodesOf ts

end

mutual

theorem every_true : (t : Tree) → t.Every fun _ => True
  | .atom _ => trivial
  | .tuple ts | .vector ts => everyOf_true ts

theorem everyOf_true : (ts : List Tree) → EveryOf (fun _ => True) ts
  | [] => trivial
  | t :: ts => ⟨every_true t, everyOf_true ts⟩

end

end Tree

namespace Store

variable {s t : Store} {o p q : ObjectId} {x : Tree} {k : Nat}

/-! ### Trees of the same objects and of other ones -/

/-- The tree below an object is a matter of what is inside it. -/
theorem unfold_congr (h : ∀ q, ReflTransGen s.Contains o q → t.value q = s.value q) :
    t.unfold k o = s.unfold k o := by
  induction k generalizing o with
  | zero => rfl
  | succ k ih =>
    have hinside : ∀ e ∈ (s.value o).elements, t.unfold k e = s.unfold k e :=
      fun e he => ih fun q hq => h q (.head he hq)
    have hmap : ∀ {es : Array ObjectId}, (∀ e ∈ es, t.unfold k e = s.unfold k e) →
        es.toList.mapM (t.unfold k) = es.toList.mapM (s.unfold k) := by
      intro es hes
      refine mapM_congr_forall₂ (List.forall₂_same.mpr fun e he => ?_) fun _ _ => id
      exact hes e (Array.mem_toList_iff.mp he)
    simp only [unfold, h o .refl]
    cases hv : s.value o with
    | atom a => rfl
    | tuple es | vector es =>
      rw [hv] at hinside
      exact congrArg (Option.map _) (hmap hinside)

theorem tree?_of_kept (hnext : s.next ≤ t.next)
    (h : ∀ q, ReflTransGen s.Contains o q → t.value q = s.value q) (hx : s.tree? o = some x) :
    t.tree? o = some x :=
  unfold_mono ((unfold_congr h).trans hx) hnext

/-- An object has a tree unless something inside it is inside itself, whatever there is
elsewhere. -/
theorem Closed.exists_tree (h : s.Closed) (ho : s.Has o)
    (hacyclic : ∀ q, ReflTransGen s.Contains o q → ¬ TransGen s.Contains q q) :
    ∃ x, s.tree? o = some x := by
  let around (e c : ObjectId) : Prop := s.Contains c e ∧ ReflTransGen s.Contains o c
  have hpath : ∀ {a b}, TransGen around a b →
      TransGen s.Contains b a ∧ ReflTransGen s.Contains o b := by
    intro a b hab
    induction hab with
    | single hstep => exact ⟨.single hstep.1, hstep.2⟩
    | tail _ hstep ih => exact ⟨.head hstep.1 ih.1, hstep.2⟩
  suffices hdeep : ∀ q, s.Has q → ReflTransGen s.Contains o q →
      ∃ y, s.tree? q = some y from hdeep o ho .refl
  refine Acyclic.induction_of around (fun q hq => hacyclic q (hpath hq).2 (hpath hq).1) ?_
  intro q hq ih hreach
  obtain ⟨y, hy⟩ : ∃ y, s.unfold (s.next + 1) q = some y :=
    exists_unfold_succ fun e he => ih e (h q e he) ⟨he, hreach⟩ (.tail hreach he)
  exact ⟨y, (h.tree?_eq_some_iff hq).mpr ⟨_, hy⟩⟩

/-- Objects with one tree are of one kind and length. -/
theorem kind_eq_of_unfold (hs : s.unfold k o = some x) (ht : t.unfold k p = some x) :
    (t.value p).kind = (s.value o).kind ∧ (t.value p).length? = (s.value o).length? := by
  cases k with
  | zero => cases hs
  | succ k =>
    rw [unfold_succ_iff] at hs ht
    rcases hs with ⟨a, hv, rfl⟩ | ⟨es, xs, hv, hes, rfl⟩ | ⟨es, xs, hv, hes, rfl⟩ <;>
      rcases ht with ⟨b, hw, heq⟩ | ⟨fs, ys, hw, hfs, heq⟩ | ⟨fs, ys, hw, hfs, heq⟩ <;> cases heq
    · rw [hv, hw]
      exact ⟨rfl, rfl⟩
    all_goals
      have hsize := hfs.length_eq.trans hes.length_eq.symm
      simp only [Array.length_toList] at hsize
      simp [hv, hw, Value.kind, Value.length?, hsize]

/-- Objects with one tree are equal, unless it has a float that is not a number. -/
theorem equalTo_of_unfold (ho : s.unfold k o = some x) (hp : s.unfold k p = some x)
    (hx : x.Every fun a => ¬ a.IsNaN) : s.equalTo k o p = true := by
  induction k generalizing o p x with
  | zero => cases ho
  | succ k ih =>
    have helements : ∀ {es fs : Array ObjectId} {xs : List Tree},
        Tree.EveryOf (fun a => ¬ a.IsNaN) xs →
        List.Forall₂ (fun e y => s.unfold k e = some y) es.toList xs →
        List.Forall₂ (fun e y => s.unfold k e = some y) fs.toList xs →
        es.isEqv fs (s.equalTo k) = true := by
      intro es fs xs hxs hes hfs
      rw [List.forall₂_iff_get] at hes hfs
      have hsize : es.size = fs.size := by simpa using hes.1.trans hfs.1.symm
      rw [Array.isEqv_iff_rel]
      refine ⟨hsize, fun i hi => ?_⟩
      have hilist : i < xs.length := by rwa [← hes.1]
      refine ih (hes.2 i (by simpa using hi) hilist) (hfs.2 i (by simpa [hsize] using hi) hilist) ?_
      exact Tree.everyOf_iff.mp hxs _ (List.getElem_mem _)
    rw [equalTo_succ_iff]
    rw [unfold_succ_iff] at ho hp
    rcases ho with ⟨a, hv, rfl⟩ | ⟨es, xs, hv, hes, rfl⟩ | ⟨es, xs, hv, hes, rfl⟩ <;>
      rcases hp with ⟨b, hw, heq⟩ | ⟨fs, ys, hw, hfs, heq⟩ | ⟨fs, ys, hw, hfs, heq⟩ <;> cases heq
    · rw [hv, hw]
      exact .inr (Atom.beq_self hx)
    all_goals
      rw [hv, hw]
      exact .inr (helements hx hes hfs)

theorem objectsEqual_of_tree? (ho : s.tree? o = some x) (hp : s.tree? p = some x)
    (hx : x.Every fun a => ¬ a.IsNaN) : s.objectsEqual o p = true := by
  have hdepth : s.objects.size ≤ s.objects.size * s.objects.size + 1 := by
    rcases Nat.eq_zero_or_pos s.objects.size with h0 | hpos
    · omega
    · have := Nat.le_mul_of_pos_left s.objects.size hpos
      omega
  exact equalTo_of_unfold (unfold_mono ho hdepth) (unfold_mono hp hdepth) hx

/-! ### Layout -/

mutual

/-- The objects of a tree have consecutive numbers from the given one on, elements first. -/
def Laid (s : Store) : Tree → Nat → Prop
  | .atom a, first => s.value first = .atom a
  | .tuple ts, first =>
    ∃ es, s.value (first + Tree.nodesOf ts) = .tuple es ∧ LaidAll s ts first es.toList
  | .vector ts, first =>
    ∃ es, s.value (first + Tree.nodesOf ts) = .vector es ∧ LaidAll s ts first es.toList

/-- Several trees one after the other; the last object of each is what holds the others. -/
def LaidAll (s : Store) : List Tree → Nat → List ObjectId → Prop
  | [], _, es => es = []
  | t :: ts, first, es =>
    ∃ rest, es = (first + t.nodes - 1) :: rest ∧ Laid s t first ∧
      LaidAll s ts (first + t.nodes) rest

end

mutual

theorem Laid.congr {first : Nat} : (x : Tree) → s.Laid x first →
    (∀ q, first ≤ q → q < first + x.nodes → t.value q = s.value q) → t.Laid x first
  | .atom a, h, hsame => (hsame first (Nat.le_refl _) (by simp [Tree.nodes])).trans h
  | .tuple ts, ⟨es, hv, hall⟩, hsame | .vector ts, ⟨es, hv, hall⟩, hsame => by
    simp only [Tree.nodes] at hsame
    exact ⟨es, (hsame _ (by omega) (by omega)).trans hv,
      LaidAll.congr ts hall fun q hle hq => hsame q hle (by omega)⟩

theorem LaidAll.congr {first : Nat} {es : List ObjectId} :
    (ts : List Tree) → s.LaidAll ts first es →
    (∀ q, first ≤ q → q < first + Tree.nodesOf ts → t.value q = s.value q) → t.LaidAll ts first es
  | [], h, _ => h
  | y :: ts, ⟨rest, hes, hy, hall⟩, hsame => by
    simp only [Tree.nodesOf] at hsame
    exact ⟨rest, hes, Laid.congr y hy fun q hle hq => hsame q hle (by omega),
      LaidAll.congr ts hall fun q hle hq => hsame q (by omega) (by omega)⟩

end

mutual

/-- What is laid out as a tree has this tree. -/
theorem Laid.unfold {first : Nat} : (x : Tree) → s.Laid x first →
    s.unfold x.nodes (first + x.nodes - 1) = some x
  | .atom a, h => by
    rw [Tree.nodes, unfold_succ_iff]
    exact .inl ⟨a, h, rfl⟩
  | .tuple ts, ⟨es, hv, hall⟩ => by
    rw [Tree.nodes, unfold_succ_iff]
    exact .inr (.inl ⟨es, ts, hv, LaidAll.unfold ts hall (Nat.le_refl _), rfl⟩)
  | .vector ts, ⟨es, hv, hall⟩ => by
    rw [Tree.nodes, unfold_succ_iff]
    exact .inr (.inr ⟨es, ts, hv, LaidAll.unfold ts hall (Nat.le_refl _), rfl⟩)

theorem LaidAll.unfold {first k : Nat} {es : List ObjectId} :
    (ts : List Tree) → s.LaidAll ts first es →
    Tree.nodesOf ts ≤ k → List.Forall₂ (fun e y => s.unfold k e = some y) es ts
  | [], h, _ => h ▸ .nil
  | y :: ts, ⟨rest, hes, hy, hall⟩, hk => by
    rw [Tree.nodesOf] at hk
    rw [hes]
    exact .cons (unfold_mono (Laid.unfold y hy) (by omega)) (LaidAll.unfold ts hall (by omega))

end

end Store

/-! ### Building -/

namespace Heap

variable {h : Heap}

theorem next_alloc {v : Value} : (h.alloc v).2.store.next = h.store.next + 1 := Store.next_push

theorem get?_alloc {v : Value} {q : ObjectId} (hq : q < h.store.next) :
    (h.alloc v).2.store.get? q = h.store.get? q :=
  Store.get?_push.trans (if_neg (Nat.ne_of_lt hq))

theorem value_alloc {v : Value} : (h.alloc v).2.store.value h.store.next = v :=
  Store.value_push.trans (if_pos rfl)

/-- Objects that are there keep what they have. -/
structure Keeps (h k : Heap) : Prop where
  next : h.store.next ≤ k.store.next
  get? : ∀ {q}, q < h.store.next → k.store.get? q = h.store.get? q

theorem Keeps.trans {k l : Heap} (hk : Keeps h k) (hl : Keeps k l) : Keeps h l :=
  ⟨Nat.le_trans hk.next hl.next,
    fun hq => (hl.get? (Nat.lt_of_lt_of_le hq hk.next)).trans (hk.get? hq)⟩

theorem Keeps.alloc {v : Value} : Keeps h (h.alloc v).2 :=
  ⟨next_alloc (v := v) ▸ Nat.le_succ _, get?_alloc⟩

theorem Keeps.value {k : Heap} (hk : Keeps h k) {q : ObjectId} (hq : q < h.store.next) :
    k.store.value q = h.store.value q := by simp only [Store.value, hk.get? hq]

mutual

theorem laid_build (h : Heap) : (x : Tree) →
    (h.build x).1 = h.store.next + x.nodes - 1 ∧ (h.build x).2.store.next = h.store.next + x.nodes ∧
      (h.build x).2.store.Laid x h.store.next ∧ Keeps h (h.build x).2
  | .atom a => ⟨rfl, next_alloc, value_alloc, .alloc⟩
  | .tuple ts => by
    obtain ⟨es, hes, hnext, hlaid, hkeeps⟩ := laid_buildAll h #[] ts
    refine ⟨hnext, ?_, ⟨es, ?_, ?_⟩, hkeeps.trans .alloc⟩
    · exact next_alloc.trans (by rw [hnext, Tree.nodes, Nat.add_assoc])
    · rw [← hnext]
      exact value_alloc.trans (by rw [hes]; simp)
    · exact hlaid.congr ts fun q _ hq => Keeps.alloc.value (hnext ▸ hq)
  | .vector ts => by
    obtain ⟨es, hes, hnext, hlaid, hkeeps⟩ := laid_buildAll h #[] ts
    refine ⟨hnext, ?_, ⟨es, ?_, ?_⟩, hkeeps.trans .alloc⟩
    · exact next_alloc.trans (by rw [hnext, Tree.nodes, Nat.add_assoc])
    · rw [← hnext]
      exact value_alloc.trans (by rw [hes]; simp)
    · exact hlaid.congr ts fun q _ hq => Keeps.alloc.value (hnext ▸ hq)

theorem laid_buildAll (h : Heap) (done : Array ObjectId) : (ts : List Tree) →
    ∃ es : Array ObjectId, (h.buildAll done ts).1 = done ++ es ∧
      (h.buildAll done ts).2.store.next = h.store.next + Tree.nodesOf ts ∧
      (h.buildAll done ts).2.store.LaidAll ts h.store.next es.toList ∧
        Keeps h (h.buildAll done ts).2
  | [] => ⟨#[], by simp [buildAll], rfl, rfl, Nat.le_refl _, fun _ => rfl⟩
  | x :: ts => by
    obtain ⟨ho, hnext, hlaid, hkeeps⟩ := laid_build h x
    obtain ⟨es, hes, hnext', hall, hkeeps'⟩ :=
      laid_buildAll (h.build x).2 (done.push (h.build x).1) ts
    refine ⟨#[(h.build x).1] ++ es, ?_, ?_, ⟨es.toList, ?_, ?_, ?_⟩, hkeeps.trans hkeeps'⟩
    · exact hes.trans (by simp)
    · exact hnext'.trans (by rw [hnext, Tree.nodesOf, Nat.add_assoc])
    · simp [ho]
    · exact hlaid.congr x fun q _ hq => hkeeps'.value (hnext ▸ hq)
    · rw [← hnext]
      exact hall

end

theorem tree?_build (h : Heap) (x : Tree) : (h.build x).2.store.tree? (h.build x).1 = some x := by
  obtain ⟨ho, hnext, hlaid, -⟩ := laid_build h x
  rw [ho]
  refine Store.unfold_mono (hlaid.unfold x) ?_
  rw [show (h.build x).2.store.objects.size = _ from hnext]
  omega

end Heap
end Scripting
