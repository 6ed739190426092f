import Mathlib.Tactic.Common
import Scripting.Proofs.Eval.Soundness

/-! No object but functions is held twice. Functions are shared through the table of functions;
every other object has one holder, be it a variable, another object or the evaluation itself. -/
namespace Scripting

/-- Objects that are lost take what they contained with them. -/
theorem Store.count_contained_le {s t : Store} {q : ObjectId} (hnext : t.next = s.next)
    (h : ∀ o, t.get? o = s.get? o ∨ t.get? o = none) :
    t.contained.count q ≤ s.contained.count q := by
  have hlist : ∀ l k : List (Option Object), k.length = l.length →
      (∀ i : Nat, k[i]?.join = l[i]?.join ∨ k[i]?.join = none) →
      (k.flatMap inside).count q ≤ (l.flatMap inside).count q := by
    intro l
    induction l with
    | nil =>
      intro k hk _
      simp [List.length_eq_zero_iff.mp hk]
    | cons x l ih =>
      intro k hk hget
      obtain ⟨y, k, rfl⟩ := List.exists_cons_of_length_eq_add_one hk
      have hrest := ih k (by simpa using hk) fun i => by simpa using hget (i + 1)
      have hfirst : (inside y).count q ≤ (inside x).count q := by
        obtain heq | hnone := hget 0
        · simp only [List.getElem?_cons_zero, Option.join_some] at heq
          exact Nat.le_of_eq (by rw [heq])
        · simp only [List.getElem?_cons_zero, Option.join_some] at hnone
          simp [hnone, inside]
      simp only [List.flatMap_cons, List.count_append]
      omega
  rw [contained_eq, contained_eq]
  refine hlist _ _ (by simpa [next] using hnext) fun i => ?_
  simpa [get?] using h i

namespace Step

variable {c c' : Config} {a : Atom} {o : ObjectId}

/-- Atoms of new objects were on offer, but for functions. -/
theorem atom (h : Step c c') (ha : c'.store.value o = .atom a) :
    c.state.Offers a ∨ ∃ d, a = .function d := by
  have hold : c.store.value o = .atom a → c.state.Offers a ∨ ∃ d, a = .function d :=
    fun hp => .inl (.inr (.inr ⟨o, hp⟩))
  cases h with
  | alloc hv =>
    simp only [Config.store, State.withHeap, Heap.alloc, Store.value_push] at ha
    split at ha
    · exact .inl (hv a ha)
    · exact hold ha
  | memoize h =>
    simp only [Config.store, State.withHeap, Heap.alloc, Store.value_push] at ha
    split at ha
    · cases ha
      exact .inr ⟨_, rfl⟩
    · exact hold ha
  | replace | extend =>
    simp only [Config.store, State.withStore, Store.value_setValue] at ha
    split at ha
    · cases ha
    · exact hold ha
  | bind => exact hold ((Environment.store_assign.2.1 o).symm.trans ha)
  | leave => exact hold ((Environment.store_leave.2.1 o).symm.trans ha)
  | _ => exact hold ha

theorem isFunction (h : Step c c') (ho : c.store.IsFunction o) : c'.store.IsFunction o := by
  obtain ⟨d, hd⟩ := ho
  exact ⟨d, Steps.value_atom (.single h) (Store.IsFunction.has ⟨d, hd⟩) hd⟩

end Step

/-- Nothing but functions is held twice, and no builtin at hand would change that. -/
structure Config.Unshared (c : Config) : Prop where
  single : ∀ q, c.holdings.count q ≤ 1 ∨ c.store.IsFunction q
  memo : ∀ x ∈ c.state.functions, c.store.IsFunction x.2
  plain : ∀ b, b.primitive = .identity → ¬ c.state.Offers (.builtin b)

namespace Config.Unshared

variable {c c' : Config}

theorem not_handsBack (h : c.Unshared) : ¬ c.state.HandsBack := by
  rintro ⟨b, hb, o, ho⟩
  exact h.plain b hb (.inr (.inr ⟨o, ho⟩))

theorem step_single (h : c.Unshared) (hs : c.Sound) (ht : Step c c') (q : ObjectId) :
    c'.holdings.count q ≤ 1 ∨ c'.store.IsFunction q := by
  obtain ⟨extra, hextra, hcount⟩ := ht.holdings
  have hq := hcount q
  by_cases hin : q ∈ extra
  · cases hextra with
    | none => cases hin
    | fresh =>
      -- nobody can have held an object that was not made
      have hnew := List.mem_singleton.mp hin
      have hnone : c.holdings.count q = 0 :=
        List.count_eq_zero.mpr fun hin => Nat.lt_irrefl _ (hnew ▸ (hs.held q hin).lt_next)
      rw [hnone] at hq
      exact .inl (Nat.le_trans hq (by simp [hnew]))
    | memo hl =>
      cases List.mem_singleton.mp hin
      exact .inr (ht.isFunction (h.memo _ (Step.mem_of_lookup hl)))
    | back hb => exact absurd hb h.not_handsBack
  · rw [List.count_eq_zero.mpr hin] at hq
    exact (h.single q).imp (Nat.le_trans hq) ht.isFunction

theorem step_memo (h : c.Unshared) (ht : Step c c') (x : Nat × ObjectId)
    (hx : x ∈ c'.state.functions) : c'.store.IsFunction x.2 := by
  have hold : x ∈ c.state.functions → c'.store.IsFunction x.2 :=
    fun hin => ht.isFunction (h.memo x hin)
  cases ht with
  | memoize hl =>
    next s d T =>
    obtain rfl | hin := List.mem_cons.mp hx
    · exact ⟨d, by simp [Config.store, State.withHeap, Heap.alloc, Store.value_push]⟩
    · exact hold hin
  | forget hin => exact hold (hin x hx)
  | _ => exact hold hx

theorem step (h : c.Unshared) (hs : c.Sound) (ht : Step c c') : c'.Unshared := by
  refine ⟨h.step_single hs ht, h.step_memo ht, fun b hb hoffers => h.plain b hb ?_⟩
  obtain hdata | hentry | ⟨o, ho⟩ := hoffers
  · exact .inl hdata
  · exact .inr (.inl (ht.builtins ▸ hentry))
  · obtain hoffers | ⟨d, hd⟩ := ht.atom ho
    · exact hoffers
    · cases hd

theorem steps (h : c.Unshared) (hs : c.Sound) (ht : Steps c c') : c'.Unshared := by
  induction ht with
  | refl => exact h
  | tail hfirst hlast ih => exact ih.step (Steps.sound hfirst hs) hlast

/-- A pass of the collector shares nothing. -/
theorem sweep {s : State} {T roots : List ObjectId} {heap : Heap} {table : Table}
    {limit : Option Nat} (h : Config.Unshared ⟨s, T⟩) (hs : Config.Sound ⟨s, T⟩)
    (hstore : heap.store = s.heap.store) (hroots : ∀ o ∈ T ++ s.roots, o ∈ roots) :
    Config.Unshared ⟨s.withHeap ⟨(heap.sweep roots limit).2.store, table⟩, T⟩ := by
  have hsound : Config.Sound ⟨s.withHeap ⟨(heap.sweep roots limit).2.store, table⟩, T⟩ :=
    hs.sweep hstore hroots
  have hvalue : ∀ {o}, (heap.sweep roots limit).2.store.Has o →
      (heap.sweep roots limit).2.store.value o = s.heap.store.value o :=
    fun ho => hstore ▸ Heap.value_sweep ho
  refine ⟨fun q => ?_, fun x hx => ?_, fun b hb hoffers => h.plain b hb ?_⟩
  · by_cases hq : (heap.sweep roots limit).2.store.Has q
    · refine (h.single q).imp (Nat.le_trans ?_) fun ⟨d, hd⟩ => ⟨d, (hvalue hq).trans hd⟩
      have hlost : ∀ o, (heap.sweep roots limit).2.store.get? o = heap.store.get? o ∨
          (heap.sweep roots limit).2.store.get? o = none :=
        fun o => (Heap.get?_sweep heap roots limit o).imp_right And.left
      have hcontained := Store.count_contained_le (q := q) Heap.next_sweep hlost
      rw [hstore] at hcontained
      simp only [Config.count_holdings, State.withHeap]
      omega
    · have hnone := List.count_eq_zero.mpr fun hin => hq (hsound.held q hin)
      exact .inl (hnone ▸ Nat.zero_le 1)
  · obtain ⟨d, hd⟩ := h.memo x hx
    exact ⟨d, (hvalue (hsound.memo x hx)).trans hd⟩
  · obtain hdata | hentry | ⟨o, ho⟩ := hoffers
    · exact .inl hdata
    · exact .inr (.inl hentry)
    · by_cases hq : (heap.sweep roots limit).2.store.Has o
      · exact .inr (.inr ⟨o, (hvalue hq).symm.trans ho⟩)
      · cases (Store.value_of_not_has hq).symm.trans ho

end Config.Unshared
end Scripting
