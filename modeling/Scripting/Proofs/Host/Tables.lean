import Mathlib.Tactic.Common
import Scripting.Proofs.Host.Collector
import Scripting.Proofs.Store.Tables

/-! The tables of a host agree with its objects at every moment. -/
namespace Scripting

namespace HeapName

/-- One thing for each heap. -/
def choose {α : Type} (main spare : α) : HeapName → α
  | .main => main
  | .spare => spare

theorem update_choose_main {α : Type} {main spare a : α} :
    Function.update (choose main spare) .main a = choose a spare := by
  funext w
  cases w <;> rfl

theorem update_choose_spare {α : Type} {main spare a : α} :
    Function.update (choose main spare) .spare a = choose main a := by
  funext w
  cases w <;> rfl

end HeapName

open HeapName

namespace Store

variable {s : Store} {q : ObjectId}

theorem slot?_foldl_release {os : List ObjectId} :
    (os.foldl Store.release s).slot? q = s.slot? q := by
  induction os generalizing s with
  | nil => rfl
  | cons o os ih => rw [List.foldl_cons, ih, slot?_release]

end Store

namespace Environment

variable {e : Environment} {s : Store} {p : Slot} {o q : ObjectId}

theorem slot?_assign : (e.assign s p o).2.slot? q = s.slot? q := by
  cases hv : e.variableAt? p with
  | none => simp [assign, hv]
  | some v => rw [snd_assign hv, Store.slot?_foldl_release, Store.slot?_retain]

theorem slot?_leave : (e.leave s).2.slot? q = s.slot? q := by
  by_cases h : 1 < e.scopes.size
  · rw [snd_leave h, Store.slot?_foldl_release]
  · rw [leave_of_not_lt h]

end Environment

/-- Steps register what they make, and change no slot besides. -/
theorem Step.tidy {c c' : Config} {spare : Table} (h : Step c c')
    (hc : Tidy c.store (choose c.state.heap.table spare)) :
    Tidy c'.store (choose c'.state.heap.table spare) := by
  cases h with
  | alloc | memoize => exact update_choose_main ▸ hc.alloc .main
  | replace | extend => exact hc.congr fun _ => Store.slot?_setValue
  | bind => exact hc.congr fun _ => Environment.slot?_assign
  | leave => exact hc.congr fun _ => Environment.slot?_leave
  | _ => exact hc

theorem Steps.tidy {c c' : Config} {spare : Table} (h : Steps c c')
    (hc : Tidy c.store (choose c.state.heap.table spare)) :
    Tidy c'.store (choose c'.state.heap.table spare) := by
  induction h with
  | refl => exact hc
  | tail _ hstep ih => exact hstep.tidy ih

namespace Host

variable {h : Host} {heap : Heap}

def tables (h : Host) : HeapName → Table := choose h.state.heap.table h.spare

theorem heap_eq (h : Host) (which : HeapName) : h.heap which = ⟨h.store, h.tables which⟩ := by
  cases which <;> rfl

theorem store_setHeap (which : HeapName) : (h.setHeap heap which).store = heap.store := by
  cases which <;> rfl

theorem tables_setHeap (which : HeapName) :
    (h.setHeap heap which).tables = Function.update h.tables which heap.table := by
  cases which
  · exact update_choose_main.symm
  · exact update_choose_spare.symm

theorem spare_run {n : Node} : ((Host.run n).run h).2.spare = h.spare := by
  obtain ⟨k, hrun, -, -, -, -, hspare⟩ := run_run (h := h) (n := n)
  rw [hrun]
  exact hspare.trans spare_eval

theorem Quiet.tables_eq {k : Host} (hq : h.Quiet k) : k.store = h.store ∧ k.tables = h.tables := by
  obtain ⟨sink, log, hstate, -, hspare⟩ := hq
  simp only [store, tables, hstate, hspare, and_self]

/-- Whatever is registered is registered in one place. -/
def Tidy (h : Host) : Prop := Scripting.Tidy h.store h.tables

theorem Tidy.setHeap {which : HeapName}
    (hh : Scripting.Tidy heap.store (Function.update h.tables which heap.table)) :
    (h.setHeap heap which).Tidy := by
  rw [Tidy, store_setHeap, tables_setHeap]
  exact hh

theorem Tidy.steps {k : Host} {T U : List ObjectId} (hh : h.Tidy) (hspare : k.spare = h.spare)
    (hsteps : Steps ⟨h.state, T⟩ ⟨k.state, U⟩) : k.Tidy := by
  rw [Tidy, tables, hspare]
  exact hsteps.tidy hh

theorem Tidy.quiet {k : Host} (hh : h.Tidy) (hq : h.Quiet k) : k.Tidy := by
  rw [Tidy, hq.tables_eq.1, hq.tables_eq.2]
  exact hh

end Host

open Moment in
theorem Turn.tidy {m m' : Moment} (h : Turn m m') (hs : m.config.Sound) (hm : m.host.Tidy) :
    m'.host.Tidy := by
  cases h with
  | step h => exact hm.steps rfl (.single h)
  | eval => exact hm.steps Host.spare_eval (steps_eval hs)
  | run => exact hm.steps Host.spare_run (steps_run hs)
  | copy | drop | dropPlace | register => exact hm
  | @keep name | @keepPlace name => cases name <;> exact hm
  | @alloc which =>
    refine Host.Tidy.setHeap ?_
    rw [Host.heap_eq]
    exact hm.alloc which
  | write => exact hm.congr fun _ => Store.slot?_setValue
  | assign ho => exact hm.steps rfl (.single (.assign (sound_cons hs ho)))
  | define ho => exact hm.steps rfl (Steps.define (sound_cons hs ho))
  | leave => exact hm.steps (T := []) rfl (.single (.leave hs.exact.leave.1))
  | restore => exact hm.steps rfl (Steps.restore _ hs)
  | remove =>
    refine Host.Tidy.setHeap ?_
    rw [Host.heap_eq]
    exact hm.remove
  | pause | resume =>
    refine Host.Tidy.setHeap ?_
    rw [Host.heap_eq]
    exact hm.setPauses
  | sweep =>
    refine Host.Tidy.setHeap ?_
    rw [Host.heap_eq]
    exact hm.sweep
  | stop =>
    refine Host.Tidy.quiet (Host.Tidy.setHeap ?_) Host.quiet_stop
    rw [Host.heap_eq]
    exact hm.clear

theorem Turns.tidy {c : EvalContext} {b : Builtins} {m : Moment} (h : Turns (.start c b) m) :
    m.host.Tidy := by
  induction h with
  | refl =>
    have hstart : (Moment.start c b).host.tables = fun _ => {} := by
      funext w
      cases w <;> rfl
    rw [Host.Tidy, hstart]
    exact .empty
  | tail hturns hturn ih => exact hturn.tidy (Turns.sound hturns) ih

end Scripting
