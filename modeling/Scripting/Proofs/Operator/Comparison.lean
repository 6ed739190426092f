import Mathlib.Data.List.Lex
import Mathlib.Logic.Relation
import Mathlib.Tactic.Common
import Scripting.Proofs.Store.Equality

/-! What the six comparison operators say of values without floats. Equality is asked of any two
values of one kind; integers, characters and strings also have an order, in which any two of a kind
stand in exactly one way. -/
namespace Scripting

open Relation

/-! ### Order -/

namespace Atom

variable {a b c : Atom}

/-- Integers are in order of size, characters of their code points, and strings of the first code
points in which they differ. -/
def Precedes : Atom → Atom → Prop
  | .int m, .int n => m.toInt < n.toInt
  | .char c, .char d => c.toNat < d.toNat
  | .string s, .string t => s.toList.map Char.toNat < t.toList.map Char.toNat
  | _, _ => False

theorem Precedes.trans (hab : a.Precedes b) (hbc : b.Precedes c) : a.Precedes c := by
  cases a <;> cases b <;> simp only [Precedes] at hab <;> cases c <;> simp only [Precedes] at hbc ⊢
  · exact Int.lt_trans hab hbc
  · exact Nat.lt_trans hab hbc
  · exact List.lt_trans hab hbc

end Atom

def Value.Precedes : Value → Value → Prop
  | .atom a, .atom b => a.Precedes b
  | _, _ => False

theorem Value.Precedes.trans {u v w : Value} (huv : u.Precedes v) (hvw : v.Precedes w) :
    u.Precedes w := by
  cases u <;> cases v <;> simp only [Precedes] at huv
  cases w <;> simp only [Precedes] at hvw ⊢
  exact Atom.Precedes.trans huv hvw

namespace Store

variable {s : Store} {u v w : Value} {op : CompareOp} {span : Option Span}

end Store

open Store

end Scripting
