import Mathlib.Data.List.Basic
import VoxelGrammar.Context.Arena

/-!
The live contexts of an arena as a list. Handles, lookups and the operations of a search are all
described through it: entering appends, rolling back takes a prefix, and handing assignments on
changes one element. The generations of dropped slots, which the list leaves out, only decide
which handle the next context of a slot gets.
-/

namespace VoxelGrammar.Arena

variable {a b c : Arena} {h : Handle} {n : Nat}

/-- The live contexts with their handles, slot by slot. -/
def live (a : Arena) : List (Handle × Context) :=
  a.contexts.toList.zipIdx.map fun e => (⟨e.2, (a.generations[e.2]?).getD 0⟩, e.1)

def Numbered (a : Arena) : Prop := a.contexts.size ≤ a.generations.size

@[simp] theorem length_live (a : Arena) : a.live.length = a.size := by
  simp [live, size]

theorem getElem?_live (a : Arena) (i : Nat) :
    a.live[i]? = a.contexts[i]?.map fun c => (⟨i, (a.generations[i]?).getD 0⟩, c) := by
  simp only [live, List.getElem?_map, List.getElem?_zipIdx, Array.getElem?_toList, Option.map_map]
  cases a.contexts[i]? <;> simp

theorem numbered_empty : empty.Numbered := Nat.le_refl _

/-- A lookup finds what the list holds at the slot of the handle, under that handle. -/
theorem get_eq_ok_iff (ha : a.Numbered) {x : Context} :
    a.get h = .ok x ↔ a.live[h.slot]? = some (h, x) := by
  have inner : a.get? h = some x ↔ a.live[h.slot]? = some (h, x) := by
    rw [getElem?_live, get?, isLive]
    by_cases hs : h.slot < a.contexts.size
    · have hg : h.slot < a.generations.size := Nat.lt_of_lt_of_le hs ha
      have eta : h = ⟨h.slot, h.generation⟩ := rfl
      simp only [hs, hg, getElem?_pos, Option.getD_some, Option.map_some, Option.some.injEq,
        decide_true, Bool.true_and, beq_iff_eq, Option.ite_none_right_eq_some, Prod.mk.injEq]
      constructor
      · rintro ⟨hgen, hx⟩
        exact ⟨by rw [hgen], hx⟩
      · rintro ⟨hh, hx⟩
        exact ⟨congrArg Handle.generation hh, hx⟩
    · simp [hs]
  rw [← inner, get]
  cases a.get? h <;> simp

/-- A live handle is the one that the list has at its slot. -/
theorem isLive_of_get (hx : a.get h = .ok x) : a.isLive h = true := by
  rw [get, get?] at hx
  split at hx
  · next hc =>
    split at hc
    · assumption
    · cases hc
  · cases hx

theorem slot_lt_of_isLive (hl : a.isLive h = true) : h.slot < a.size := by
  simp only [isLive, Bool.and_eq_true, decide_eq_true_eq] at hl
  exact hl.1

theorem slot_lt_of_get (hx : a.get h = .ok x) : h.slot < a.size :=
  slot_lt_of_isLive (isLive_of_get hx)

/-! ### Entering -/

@[simp] theorem push_slot (a : Arena) (x : Context) : (a.push x).1.slot = a.size := rfl

@[simp] theorem size_push (a : Arena) (x : Context) : (a.push x).2.size = a.size + 1 := by
  simp [push, size]

theorem generations_push (ha : a.Numbered) (x : Context) (i : Nat) :
    (a.push x).2.generations[i]? =
      if i = a.size then some (a.push x).1.generation else a.generations[i]? := by
  simp only [push, size, Numbered] at ha ⊢
  by_cases hs : a.contexts.size < a.generations.size
  · by_cases hi : i = a.contexts.size
    · subst hi
      simp [hs]
    · simp [hs, hi, Array.getElem?_setIfInBounds_ne (Ne.symm hi)]
  · have he : a.contexts.size = a.generations.size := by omega
    by_cases hi : i = a.contexts.size
    · simp [he, hi]
    · simp only [hs, hi, if_false]
      rw [Array.getElem?_push]
      rw [if_neg (by omega)]

theorem numbered_push (ha : a.Numbered) (x : Context) : (a.push x).2.Numbered := by
  simp only [Numbered, push] at ha ⊢
  split
  · simpa using Nat.succ_le_of_lt ‹_›
  · simpa using ha

theorem live_push (ha : a.Numbered) (x : Context) :
    (a.push x).2.live = a.live ++ [((a.push x).1, x)] := by
  apply List.ext_getElem?
  intro i
  rw [getElem?_live, generations_push ha, List.getElem?_append]
  have hc : (a.push x).2.contexts = a.contexts.push x := rfl
  rw [hc, Array.getElem?_push, length_live]
  by_cases hi : i < a.size
  · have hne : i ≠ a.size := by omega
    have hne' : i ≠ a.contexts.size := hne
    rw [if_pos hi, if_neg hne, if_neg hne', getElem?_live]
  · by_cases he : i = a.size
    · subst he
      have hs : a.size = a.contexts.size := rfl
      simp [hs, push]
    · have hne' : i ≠ a.contexts.size := he
      have hout : a.contexts[i]? = none := by
        rw [Array.getElem?_eq_none_iff]
        simp only [size] at hi
        omega
      have hlast : i - a.size ≠ 0 := by omega
      rw [if_neg hi, if_neg hne', hout]
      simp [hlast]

theorem mem_live_push (ha : a.Numbered) {x : Context} {e : Handle × Context} :
    e ∈ (a.push x).2.live ↔ e ∈ a.live ∨ e = ((a.push x).1, x) := by
  rw [live_push ha, List.mem_append, List.mem_singleton]

theorem subset_push (ha : a.Numbered) (x : Context) : a.live ⊆ (a.push x).2.live :=
  fun _ he => (mem_live_push ha).2 (.inl he)

theorem get_push (ha : a.Numbered) (x : Context) : (a.push x).2.get (a.push x).1 = .ok x := by
  rw [get_eq_ok_iff (numbered_push ha x), live_push ha]
  simp

theorem eq_of_get_push {x y : Context} (ha : a.Numbered)
    (hy : (a.push x).2.get (a.push x).1 = .ok y) : x = y := by
  rw [get_push ha] at hy
  cases hy
  rfl

theorem prepare_ok {g : Grammar} {parent : Option Handle} {ref : SymbolRef}
    {placement : Transform} {seed : Seed} {x : Context}
    (hx : a.prepare g parent ref placement seed = .ok x) :
    ∃ p symbol, a.parentContext parent = .ok p ∧ g.symbol ref = .ok symbol ∧
      Context.enter p ref symbol placement seed = .ok x := by
  simp only [prepare, bind, Except.bind, liftM, monadLift, MonadLift.monadLift] at hx
  rcases hp : a.parentContext parent with e | p
  · rw [hp] at hx
    cases hx
  · rcases hs : g.symbol ref with e | symbol
    · rw [hp, hs] at hx
      cases hx
    · refine ⟨p, symbol, rfl, rfl, ?_⟩
      rw [hp, hs] at hx
      rcases he : Context.enter p ref symbol placement seed with e | y <;>
        simp [he, Except.mapError] at hx
      rw [hx]

theorem symbol_of_prepare {g : Grammar} {parent : Option Handle} {ref : SymbolRef}
    {placement : Transform} {seed : Seed} {x : Context}
    (hx : a.prepare g parent ref placement seed = .ok x) : x.symbol = ref := by
  obtain ⟨p, symbol, _, _, he⟩ := prepare_ok hx
  unfold Context.enter at he
  dsimp only at he
  split at he
  · cases he
  · cases he
    rfl

/-! ### Rolling back -/

theorem numbered_truncate (ha : a.Numbered) (n : Nat) : (a.truncate n).Numbered := by
  simp only [Numbered, truncate] at ha ⊢
  simp
  omega

theorem live_truncate (a : Arena) (n : Nat) : (a.truncate n).live = a.live.take n := by
  have shorter : (a.truncate n).contexts.toList = a.contexts.toList.take n := by simp [truncate]
  apply List.ext_getElem?
  intro i
  have cut : (a.truncate n).contexts[i]? = if i < n then a.contexts[i]? else none := by
    rw [← Array.getElem?_toList, shorter, List.getElem?_take, Array.getElem?_toList]
  rw [getElem?_live, List.getElem?_take, getElem?_live, cut]
  split <;> rfl

theorem mem_of_mem_truncate {e : Handle × Context} (he : e ∈ (a.truncate n).live) : e ∈ a.live :=
  List.mem_of_mem_take (live_truncate a n ▸ he)

@[simp] theorem size_truncate (a : Arena) (n : Nat) : (a.truncate n).size = min n a.size := by
  rw [← length_live, live_truncate, List.length_take, length_live]

/-! ### Changing a context -/

@[simp] theorem size_modify (a : Arena) (h : Handle) (f : Context → Context) :
    (a.modify h f).size = a.size := by
  simp only [modify, size]
  split <;> simp

theorem numbered_modify (ha : a.Numbered) (h : Handle) (f : Context → Context) :
    (a.modify h f).Numbered := by
  simp only [modify, Numbered] at ha ⊢
  split
  · simpa using ha
  · exact ha

theorem live_modify (hl : a.isLive h = true) (f : Context → Context) :
    (a.modify h f).live = a.live.modify h.slot fun e => (e.1, f e.2) := by
  apply List.ext_getElem?
  intro i
  rw [getElem?_live, List.getElem?_modify, getElem?_live, modify, if_pos hl]
  simp only [Array.getElem?_modify]
  by_cases hi : h.slot = i
  · simp [hi, Function.comp_def]
  · simp [hi]

theorem live_assign (hl : a.isLive h = true) (s : Symbol) :
    (a.assign h s).live = a.live.modify h.slot fun e => (e.1, e.2.assign s) := live_modify hl _

/-- Changing a context changes at most what is found under its handle. -/
theorem mem_live_modify {f : Context → Context} {e : Handle × Context}
    (he : e ∈ (a.modify h f).live) : ∃ c, (e.1, c) ∈ a.live ∧ (e.2 = c ∨ e.1 = h ∧ e.2 = f c) := by
  by_cases hl : a.isLive h = true
  · rw [live_modify hl] at he
    obtain ⟨i, hi⟩ := List.mem_iff_getElem?.1 he
    rw [List.getElem?_modify] at hi
    obtain ⟨d, hd, rfl⟩ := Option.map_eq_some_iff.1 hi
    have old := List.mem_of_getElem? hd
    by_cases hs : h.slot = i
    · have here : d.1 = h := by
        simp only [isLive, Bool.and_eq_true, beq_iff_eq, decide_eq_true_eq] at hl
        rw [getElem?_live, ← hs, hl.2] at hd
        obtain ⟨c, _, rfl⟩ := Option.map_eq_some_iff.1 hd
        rfl
      rw [if_pos hs]
      exact ⟨d.2, old, .inr ⟨here, rfl⟩⟩
    · rw [if_neg hs]
      exact ⟨d.2, old, .inl rfl⟩
  · rw [modify, if_neg hl] at he
    exact ⟨e.2, he, .inl rfl⟩

/-- Changing the latest context leaves the others as they are. -/
theorem live_assign_push (ha : a.Numbered) (x : Context) (s : Symbol) :
    ((a.push x).2.assign (a.push x).1 s).live = a.live ++ [((a.push x).1, x.assign s)] := by
  rw [live_assign (isLive_of_get (get_push ha x)), live_push ha]
  rw [push_slot, ← length_live, List.modify_eq_take_drop]
  simp

/-! ### What is kept -/

structure Keeps (n : Nat) (a b : Arena) : Prop where
  le : n ≤ b.size
  live : b.live.take n = a.live.take n

namespace Keeps

theorem refl (h : n ≤ a.size) : Keeps n a a := ⟨h, rfl⟩

theorem trans (hab : Keeps n a b) (hbc : Keeps n b c) : Keeps n a c :=
  ⟨hbc.le, hbc.live.trans hab.live⟩

theorem mono {m : Nat} (hmn : m ≤ n) (hab : Keeps n a b) : Keeps m a b := by
  refine ⟨Nat.le_trans hmn hab.le, ?_⟩
  have := congrArg (List.take m) hab.live
  rwa [List.take_take, List.take_take, Nat.min_eq_left hmn] at this

theorem of_append {more : List (Handle × Context)} (hb : b.live = a.live ++ more) :
    Keeps a.size a b := by
  refine ⟨?_, ?_⟩
  · rw [← length_live b, hb, List.length_append, length_live]
    omega
  · rw [hb, ← length_live, List.take_left, List.take_length]

/-- What is kept is still there. -/
theorem subset (h : Keeps a.size a b) : a.live ⊆ b.live := by
  have kept := h.live
  rw [← length_live a, List.take_length] at kept
  rw [← kept]
  exact List.take_subset _ _

end Keeps

end VoxelGrammar.Arena
