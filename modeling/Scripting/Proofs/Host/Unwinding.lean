import Mathlib.Tactic.Common
import Scripting.Proofs.Eval.Levels
import Scripting.Proofs.Host.Bindings
import Scripting.Proofs.Host.Stacks

/-! How a command of the host that fails leaves the stacks. Evaluation takes them down again;
finding a place or an object by reference does not, and what was open where it failed stays open,
with its bindings. -/
namespace Scripting

/-! ### What is open -/

namespace Environment

variable {e : Environment} {height : Nat}

/-- The objects that variables hold in the scopes below a height. -/
def slotsBelow (e : Environment) (height : Nat) : List ObjectId :=
  (e.scopes.toList.take height).flatMap Scope.objects

theorem slots_eq_append (e : Environment) (height : Nat) :
    e.slots = e.slotsBelow height ++ e.slotsFrom height := by
  rw [slots, slotsBelow, slotsFrom, ← List.flatMap_append, List.take_append_drop]

theorem slotsBelow_of_size_le (h : e.scopes.size ≤ height) : e.slotsBelow height = e.slots := by
  rw [slotsBelow, slots, List.take_of_length_le (by simpa using h)]

end Environment

/-- Nothing is put on any stack without a scope. -/
def Watch.openings (c : Checkpoint) : Watch where
  holds := fun e => e.Rooted ∧ (e.checkpoint = c ∨ c.scopes < e.scopes.size)
  rooted := And.left
  balanced := by
    rintro e e' ⟨hrooted, hopen⟩ hb
    rw [← hb.heights, ← hb.size_scopes] at hopen
    exact ⟨hb.toExtends.rooted hrooted, hopen⟩
  block := by
    rintro e fs ⟨hrooted, hopen⟩
    exact ⟨Environment.Extends.enter.rooted hrooted, .inr (lt_size hopen)⟩
  loop := by
    rintro e fs ⟨hrooted, hopen⟩
    exact ⟨Environment.Extends.loopOpened.rooted hrooted, .inr (lt_size hopen)⟩
  call := by
    rintro e d ⟨hrooted, hopen⟩
    exact ⟨Environment.Extends.callOpened.rooted hrooted, .inr (lt_size hopen)⟩
where
  lt_size {e : Environment} {x : Scope} (h : e.checkpoint = c ∨ c.scopes < e.scopes.size) :
      c.scopes < (e.scopes.push x).size := by
    rw [Array.size_push]
    rcases h with rfl | h
    · exact Nat.lt_succ_self _
    · exact Nat.lt_succ_of_lt h

namespace Host

variable {α : Type} {h k : Host} {n : Node} {stop : Stop}

theorem exists_error {x : HostM (Except Stop α)} (hx : (x.run h).1.toOption = none) :
    ∃ stop k, x.run h = (.error stop, k) := by
  cases hrun : x.run h with
  | mk result k =>
    rw [hrun] at hx
    cases result with
    | ok a => cases hx
    | error stop => exact ⟨stop, k, rfl⟩

/-- The stacks are as high as before the command, and only bindings of scopes that were open before
it are counted. -/
structure Unwound (h k : Host) : Prop where
  heights : k.env.checkpoint = h.env.checkpoint
  released : ∀ o, k.store.bindings o = (k.env.slotsBelow h.env.scopes.size).count o

theorem unwound_of_heights (hexact : k.env.Exact k.store)
    (hheights : k.env.checkpoint = h.env.checkpoint) :
    h.Unwound k where
  heights := hheights
  released := by
    intro o
    have hsize : k.env.scopes.size = h.env.scopes.size := congrArg Checkpoint.scopes hheights
    rw [Environment.slotsBelow_of_size_le (Nat.le_of_eq hsize)]
    exact hexact o

/-- How a command that failed has left the stacks: what was there is there, what is above it still
counts its bindings, and unless that is nothing the stacks have to be taken down. -/
structure LeftOpen (h : Host) (n : Node) (k : Host) : Prop where
  extended : h.env.Extends k.env
  bindings : ∀ o, k.store.bindings o = (k.env.slotsBelow h.env.scopes.size).count o +
    (k.env.slotsFrom h.env.scopes.size).count o
  unwound_iff : h.Unwound k ↔ k.env.scopes.size = h.env.scopes.size
  unwound_of_isFlat : n.isFlat = true → h.Unwound k
  restored : h.Unwound ((Host.restore h.env.checkpoint).run k).2

theorem leftOpen_of_error {x y : Eval α} {T : List ObjectId} {P : α → State → List ObjectId → Prop}
    (hs : Config.Sound ⟨h.state, T⟩) (hrooted : h.env.Rooted)
    (htracks : Eval.Tracks (.openings h.env.checkpoint) 0 y x h.state)
    (hlands : Eval.Lands x h.state [] P) (hlevel : n.isFlat = true → Eval.Level x)
    (hrun : (Host.act x).run h = (.error stop, k)) : h.LeftOpen n k := by
  have hends := (htracks ⟨hrooted, .inl rfl⟩).2
  have hsteps := hlands hs.unheld
  have hheights := fun hn => hlevel hn h.state
  rw [run_act] at hrun
  cases hr : x h.state with
  | ok a s =>
    rw [hr] at hrun
    cases hrun
  | error stop' s =>
    rw [hr] at hrun hends hsteps
    simp only [hr] at hheights
    cases hrun
    -- the steps up to the error keep the counts exact, whatever they leave open
    obtain ⟨⟨-, hopen⟩, hextends⟩ := hends
    obtain ⟨U, hsteps⟩ := hsteps
    have hfailed := (hsteps.sound hs.unheld).unheld
    have hrestored := (Steps.restore h.env.checkpoint hfailed).sound hfailed
    exact
      { extended := hextends
        bindings := by
          intro o
          rw [← List.count_append, ← Environment.slots_eq_append]
          exact hfailed.exact o
        unwound_iff := by
          refine ⟨fun hu => congrArg Checkpoint.scopes hu.heights, fun hsize => ?_⟩
          rcases hopen with hopen | hopen
          · exact unwound_of_heights hfailed.exact hopen
          · exact absurd hsize (Nat.ne_of_gt hopen)
        unwound_of_isFlat := fun hn => unwound_of_heights hfailed.exact (hheights hn)
        restored := unwound_of_heights hrestored.exact (hextends.restore hrooted).heights }

theorem leftOpen_of_place {T : List ObjectId} (hs : Config.Sound ⟨h.state, T⟩)
    (hrooted : h.env.Rooted) (hrun : (Host.place n).run h = (.error stop, k)) : h.LeftOpen n k :=
  leftOpen_of_error hs hrooted (.place (Eval.tracks_node _ Eval.fuel) n)
    (.place (Eval.evaluates_node Eval.fuel))
    (Eval.Level.place fun _ => .node Eval.fuel) hrun

theorem leftOpen_of_reference {T : List ObjectId} (hs : Config.Sound ⟨h.state, T⟩)
    (hrooted : h.env.Rooted) (hrun : (Host.reference n).run h = (.error stop, k)) :
    h.LeftOpen n k :=
  leftOpen_of_error hs hrooted (.reference (Eval.tracks_node _ Eval.fuel) n)
    (.reference (Eval.evaluates_node Eval.fuel))
      (Eval.Level.reference fun _ => .node Eval.fuel) hrun

end Host

/-- A command to find a place or an object by reference that fails leaves open what was open where
it failed. It has taken the stacks down exactly if no scope was: never otherwise, and always if the
tree has no block, loop or call. Going back to the heights before does what evaluation does by
itself. -/
theorem failed_resolution_unwound_iff {c : EvalContext} {b : Builtins} {m : Moment}
    (h : Turns (.start c b) m) (n : Node) :
    (∀ stop k, (Host.place n).run m.host = (.error stop, k) → m.host.LeftOpen n k) ∧
    (∀ stop k, (Host.reference n).run m.host = (.error stop, k) → m.host.LeftOpen n k) ∧
    (∀ stop k, (Host.eval n).run m.host = (.error stop, k) → m.host.Unwound k) := by
  refine ⟨fun stop k => Host.leftOpen_of_place h.sound h.rooted,
    fun stop k => Host.leftOpen_of_reference h.sound h.rooted, fun stop k hrun => ?_⟩
  have hk : k = ((Host.eval n).run m.host).2 := by rw [hrun]
  rw [hk]
  exact Host.unwound_of_heights ((Moment.steps_eval h.sound).sound h.sound).exact
    (Host.balanced_eval h.rooted).heights

/-- A variable is bound to a vector of one element. -/
def sevenBound : Moment :=
  (Moment.start {} .standard).giving
    (Host.eval (.letVar none ⟨"v", none⟩ none (some (.list none [.literal none (.int 7)]))))

/-- An element of the vector, with an index that has no value. -/
def undeclaredIndex : Node := .subscript none (.var none ⟨"v", none⟩) (.var none ⟨"nope", none⟩)

/-- The same, with the index in a block that binds a variable first. -/
def failingBlockIndex : Node :=
  .subscript none (.var none ⟨"v", none⟩) (.block none
    [.letVar none ⟨"y", none⟩ none (some (.literal none (.int 0))), .var none ⟨"nope", none⟩])

theorem failed_resolution_unwound_iff_sevenBound :
    (∃ stop k, (Host.place undeclaredIndex).run sevenBound.host = (.error stop, k) ∧
      sevenBound.host.Unwound k) ∧
    ∃ stop k, (Host.reference failingBlockIndex).run sevenBound.host = (.error stop, k) ∧
      sevenBound.host.Unwound ((Host.restore sevenBound.host.env.checkpoint).run k).2 := by
  have hturns : Turns (.start {} .standard) sevenBound := .single .eval
  have hplace : ((Host.place undeclaredIndex).run sevenBound.host).1.toOption = none := by
    decide +kernel
  have hreference : ((Host.reference failingBlockIndex).run sevenBound.host).1.toOption = none := by
    decide +kernel
  obtain ⟨hplaceOpen, -⟩ := failed_resolution_unwound_iff hturns undeclaredIndex
  obtain ⟨-, hreferenceOpen, -⟩ := failed_resolution_unwound_iff hturns failingBlockIndex
  generalize sevenBound.host = h at *
  obtain ⟨stop, k, hrun⟩ := Host.exists_error hplace
  obtain ⟨stop', k', hrun'⟩ := Host.exists_error hreference
  exact ⟨⟨stop, k, hrun, (hplaceOpen stop k hrun).unwound_of_isFlat rfl⟩,
    stop', k', hrun', (hreferenceOpen stop' k' hrun').restored⟩

/-- The block stays open, with the binding of its variable. -/
theorem failed_resolution_leaves_block_open :
    (∃ stop k, (Host.place failingBlockIndex).run sevenBound.host = (.error stop, k) ∧
      k.env.checkpoint = ⟨2, 0, 0⟩ ∧ k.env.slotsFrom 1 = [3] ∧ ¬ sevenBound.host.Unwound k) ∧
    ∃ stop k, (Host.reference failingBlockIndex).run sevenBound.host = (.error stop, k) ∧
      k.env.checkpoint = ⟨2, 0, 0⟩ ∧ k.env.slotsFrom 1 = [3] ∧ ¬ sevenBound.host.Unwound k := by
  have hbefore : sevenBound.host.env.checkpoint = ⟨1, 0, 0⟩ := by decide +kernel
  have hplace : ((Host.place failingBlockIndex).run sevenBound.host).1.toOption = none := by
    decide +kernel
  have hreference : ((Host.reference failingBlockIndex).run sevenBound.host).1.toOption = none := by
    decide +kernel
  have hplaced : ((Host.place failingBlockIndex).run sevenBound.host).2.env.checkpoint = ⟨2, 0, 0⟩ ∧
      ((Host.place failingBlockIndex).run sevenBound.host).2.env.slotsFrom 1 = [3] := by
    decide +kernel
  have hreferred :
      ((Host.reference failingBlockIndex).run sevenBound.host).2.env.checkpoint = ⟨2, 0, 0⟩ ∧
      ((Host.reference failingBlockIndex).run sevenBound.host).2.env.slotsFrom 1 = [3] := by
    decide +kernel
  generalize sevenBound.host = h at *
  obtain ⟨stop, k, hrun⟩ := Host.exists_error hplace
  obtain ⟨stop', k', hrun'⟩ := Host.exists_error hreference
  rw [hrun] at hplaced
  rw [hrun'] at hreferred
  have hopen : ∀ l : Host, l.env.checkpoint = ⟨2, 0, 0⟩ → ¬ h.Unwound l := by
    intro l hl hu
    cases hl.symm.trans (hu.heights.trans hbefore)
  exact ⟨⟨stop, k, hrun, hplaced.1, hplaced.2, hopen k hplaced.1⟩,
    stop', k', hrun', hreferred.1, hreferred.2, hopen k' hreferred.1⟩

end Scripting
