import Mathlib.Algebra.Ring.Nat
import Mathlib.Data.List.Perm.Basic
import VoxelGrammar.Proofs.Notes

/-!
The accounts of a cache. Whatever it has been asked for, its index and its entries describe each
other, the bytes in use are those of its entries as far as a word can hold them and fit, and what it
finds for a key is what was put there last. Nothing of this depends on which records the draws make
it drop.
-/

namespace VoxelGrammar.Cache

variable {c : Cache} {key : RecordKey} {r : Record} {n slot : Nat} {e : CacheEntry}

/-! ### Bytes -/

/-- The bytes of all records, however many there are. -/
def bytes (c : Cache) : Nat := (c.entries.toList.map (·.size)).sum

@[simp] theorem charge_mod (a n : Nat) : charge (a % 2 ^ 64) n = (a + n) % 2 ^ 64 := by
  simp [charge]

theorem refund_mod {a n : Nat} (h : n ≤ a) : refund (a % 2 ^ 64) n = (a - n) % 2 ^ 64 := by
  simp only [refund, UInt64.toNat_sub, Nat.toUInt64, UInt64.toNat_ofNat']
  omega

theorem bytes_of_perm {rest : List CacheEntry} (perm : c.entries.toList.Perm (e :: rest)) :
    c.bytes = e.size + (rest.map (·.size)).sum :=
  (perm.map fun e : CacheEntry => e.size).sum_nat

/-! ### The victim -/

theorem lt_of_mem_lineup (h : 0 < c.size) (hslot : slot ∈ c.lineup) : slot < c.size := by
  unfold lineup at hslot
  split at hslot
  · exact List.mem_range.1 hslot
  · obtain ⟨k, _, rfl⟩ := List.mem_map.1 hslot
    exact Nat.mod_lt _ h

theorem lineup_ne_nil (h : 0 < c.size) : c.lineup ≠ [] := by
  unfold lineup
  split
  · simpa using Nat.ne_of_gt h
  · simp

/-- Whatever the scores are, numbers or not, one of the slots that are compared is chosen. -/
theorem choice_mem (score : Nat → Float32) (among : List Nat) {slots : List Nat}
    (hslots : ∀ slot ∈ slots, slot ∈ among) {best : Nat × Float32} (hbest : best.1 ∈ among) :
    (slots.foldl (fun best slot => if best.2 < score slot then (slot, score slot) else best)
      best).1 ∈ among := by
  induction slots generalizing best with
  | nil => exact hbest
  | cons slot slots ih =>
      obtain ⟨hslot, hslots⟩ := List.forall_mem_cons.1 hslots
      rw [List.foldl_cons]
      apply ih hslots
      split
      · exact hslot
      · exact hbest

theorem victim_lt (h : 0 < c.size) : c.victim < c.size := by
  obtain ⟨first, rest, hl⟩ := List.exists_cons_of_ne_nil (lineup_ne_nil h)
  refine lt_of_mem_lineup h (choice_mem _ c.lineup (fun _ hslot => hslot) ?_)
  simp [hl]

/-! ### Order in the books -/

/-- The index and the entries describe each other, and the bytes in use are those of the entries,
as a word holds them. -/
structure Balanced (c : Cache) : Prop where
  indexed : ∀ key slot, c.index[key]? = some slot ↔
    ∃ e : CacheEntry, c.entries[slot]? = some e ∧ e.key = key
  used : c.used = c.bytes % 2 ^ 64

theorem balanced_clear (c : Cache) : c.clear.Balanced := ⟨by simp [clear], rfl⟩

theorem Balanced.holds (h : c.Balanced) : c.Holds (fun _ _ => True) fun _ _ => True :=
  ⟨fun _ _ _ => trivial, fun _ _ _ => trivial, fun key slot => (h.indexed key slot).1⟩

theorem Balanced.slot_unique (h : c.Balanced) {i j : Nat} {d : CacheEntry}
    (hi : c.entries[i]? = some e) (hj : c.entries[j]? = some d) (hkey : e.key = d.key) : i = j :=
  Option.some.inj <|
    ((h.indexed d.key i).2 ⟨e, hi, hkey⟩).symm.trans ((h.indexed d.key j).2 ⟨d, hj, rfl⟩)

theorem Balanced.nodup_keys (h : c.Balanced) : (c.entries.toList.map (·.key)).Nodup := by
  rw [List.nodup_iff_pairwise_ne, List.pairwise_map, List.pairwise_iff_getElem]
  intro i j hi hj hlt hkey
  simp only [Array.getElem_toList, Array.length_toList] at hi hj hkey
  have := h.slot_unique (Array.getElem?_eq_getElem hi) (Array.getElem?_eq_getElem hj) hkey
  omega

/-! ### Dropping -/

/-- Dropping a slot leaves all entries but the one that was there. -/
theorem perm_dropSlot (he : c.entries[slot]? = some e) :
    c.entries.toList.Perm (e :: (c.dropSlot slot).entries.toList) := by
  have hslot : slot < c.entries.size := (Array.getElem?_eq_some_iff.1 he).1
  have hlast : c.entries.size - 1 < c.entries.size := by omega
  -- The entry trades places with the last one, and the last one is taken off.
  have final : (c.entries.swap slot (c.entries.size - 1)).back? = some e := by
    rw [Array.back?_eq_getElem?, Array.size_swap, Array.getElem?_swap, if_pos rfl, ← he,
      Array.getElem?_eq_getElem hslot]
  rw [← Array.getLast?_toList, List.getLast?_eq_some_iff] at final
  obtain ⟨rest, hrest⟩ := final
  have kept : (c.dropSlot slot).entries.toList = rest := by
    rw [entries_dropSlot he, Array.swapIfInBounds_def, dif_pos hslot, dif_pos hlast,
      Array.toList_pop, hrest, List.dropLast_concat]
  have swapped := (Array.perm_iff_toList_perm.1 (Array.swap_perm hslot hlast)).symm
  rw [hrest, ← kept] at swapped
  exact swapped.trans List.perm_append_comm

/-- The index still leads to every entry that is left. -/
theorem Balanced.index_dropSlot (h : c.Balanced) (he : c.entries[slot]? = some e) {i : Nat}
    {d : CacheEntry} (hd : (c.dropSlot slot).entries[i]? = some d) :
    (c.dropSlot slot).index[d.key]? = some i := by
  have place := getElem?_dropSlot he
  rw [Cache.index_dropSlot he]
  by_cases hi : i = slot
  · subst hi
    rw [hd]
    simp
  · -- The entry was there before, so neither the dropped one nor the last one has its key.
    have before : i < c.entries.size - 1 ∧ c.entries[i]? = some d := by
      rw [place] at hd
      simpa [hi] using hd
    have erased : (c.index.erase e.key)[d.key]? = some i := by
      have hne : e.key ≠ d.key := fun heq => hi (h.slot_unique before.2 he heq.symm)
      simpa [Std.HashMap.getElem?_erase, hne] using (h.indexed d.key i).2 ⟨d, before.2, rfl⟩
    cases hm : (c.dropSlot slot).entries[slot]? with
    | none => exact erased
    | some moved =>
        have hne : moved.key ≠ d.key := by
          intro heq
          rw [place, Option.ite_none_right_eq_some, if_pos rfl] at hm
          have := h.slot_unique before.2 hm.2 heq.symm
          omega
        simpa [Std.HashMap.getElem?_insert, hne] using erased

theorem Balanced.dropSlot (h : c.Balanced) (slot : Nat) : (c.dropSlot slot).Balanced := by
  cases he : c.entries[slot]? with
  | none =>
      rw [Cache.dropSlot, he]
      exact h
  | some e =>
      refine ⟨fun key i => ⟨(h.holds.dropSlot slot).indexed key i, ?_⟩, ?_⟩
      · rintro ⟨d, hd, rfl⟩
        exact h.index_dropSlot he hd
      · have left : c.bytes = e.size + (c.dropSlot slot).bytes := bytes_of_perm (perm_dropSlot he)
        have refunded : (c.dropSlot slot).used = refund c.used e.size := by rw [Cache.dropSlot, he]
        rw [refunded, h.used, refund_mod (by omega), left, Nat.add_sub_cancel_left]

theorem size_dropSlot (h : slot < c.size) : (c.dropSlot slot).size + 1 = c.size := by
  have moved := (perm_dropSlot (Array.getElem?_eq_getElem h)).length_eq
  simpa [size] using moved.symm

/-! ### Evictions -/

theorem entries_evict (c : Cache) : c.evict.entries = (c.dropSlot c.victim).entries := rfl

@[simp] theorem capacity_evict (c : Cache) : c.evict.capacity = c.capacity := by
  show (c.dropSlot c.victim).capacity = c.capacity
  rw [dropSlot]
  split <;> rfl

theorem Balanced.evict (h : c.Balanced) : c.evict.Balanced := by
  have dropped := h.dropSlot c.victim
  exact ⟨dropped.indexed, dropped.used⟩

@[simp] theorem stats_evict (c : Cache) :
    c.evict.stats = { c.stats with evictions := c.stats.evictions + 1 } := by
  have kept : (c.dropSlot c.victim).stats = c.stats := by
    rw [dropSlot]
    split <;> rfl
  rw [evict, kept]

theorem size_evict (h : 0 < c.size) : c.evict.size + 1 = c.size := size_dropSlot (victim_lt h)

theorem subset_evict (c : Cache) : c.evict.entries.toList ⊆ c.entries.toList := by
  rw [entries_evict]
  cases he : c.entries[c.victim]? with
  | none =>
      rw [dropSlot, he]
      exact List.Subset.refl _
  | some e => exact fun d hd => (perm_dropSlot he).mem_iff.2 (List.mem_cons_of_mem e hd)

/-- The loop that an insertion ends with: while the records do not fit and there are any, one is
dropped. -/
inductive Settles : Cache → Cache → Prop
  | fits {c : Cache} (h : c.used ≤ c.capacity ∨ c.isEmpty = true) : Settles c c
  | evict {c d : Cache} (full : c.capacity < c.used) (filled : c.isEmpty = false)
    (rest : Settles c.evict d) : Settles c d

theorem isEmpty_eq_false_iff : c.isEmpty = false ↔ 0 < c.size := by
  simp [isEmpty, Array.isEmpty, size, Nat.pos_iff_ne_zero]

theorem Balanced.used_eq_zero (h : c.Balanced) (empty : c.isEmpty = true) : c.used = 0 := by
  rw [h.used, bytes, Array.isEmpty_iff.1 empty]
  rfl

/-- As many evictions as there are records always do. -/
theorem Balanced.settles_shrink (h : c.Balanced) (hn : c.size ≤ n) : c.Settles (c.shrink n) := by
  induction n generalizing c with
  | zero =>
      refine .fits (.inr ?_)
      simpa [isEmpty, Array.isEmpty, size] using hn
  | succ n ih =>
      rw [shrink]
      split
      · next fits => exact .fits (.inl fits)
      · next full =>
        have filled : c.isEmpty = false := by
          by_contra hempty
          have := h.used_eq_zero (by simpa using hempty)
          omega
        have := size_evict (isEmpty_eq_false_iff.1 filled)
        exact .evict (Nat.lt_of_not_le full) filled (ih h.evict (by omega))

namespace Settles

variable {d : Cache} (h : c.Settles d)

include h

theorem balanced (hc : c.Balanced) : d.Balanced := by
  induction h with
  | fits => exact hc
  | evict _ _ _ ih => exact ih hc.evict

theorem capacity : d.capacity = c.capacity := by
  induction h with
  | fits => rfl
  | evict _ _ _ ih => exact ih.trans (capacity_evict _)

theorem used_le (hc : c.Balanced) : d.used ≤ c.capacity := by
  induction h with
  | fits h =>
      rcases h with h | h
      · exact h
      · exact hc.used_eq_zero h ▸ Nat.zero_le _
  | evict _ _ _ ih => exact capacity_evict _ ▸ ih hc.evict

theorem subset : d.entries.toList ⊆ c.entries.toList := by
  induction h with
  | fits => exact List.Subset.refl _
  | evict _ _ _ ih => exact List.Subset.trans ih (subset_evict _)

/-- What is missing has been counted as evicted. -/
theorem evictions : d.size + d.stats.evictions = c.size + c.stats.evictions := by
  induction h with
  | fits => rfl
  | @evict c _ _ filled _ ih =>
      have := size_evict (isEmpty_eq_false_iff.1 filled)
      simp only [stats_evict] at ih
      omega

theorem lookups : d.stats.hits = c.stats.hits ∧ d.stats.misses = c.stats.misses := by
  induction h with
  | fits => exact ⟨rfl, rfl⟩
  | evict _ _ _ ih => simpa only [stats_evict] using ih

end Settles

/-! ### Placing -/

/-- A record is added to the others, or takes the place of the one that its key had. -/
theorem Balanced.place_cases (h : c.Balanced) (key : RecordKey) (r : Record) (n : Nat) :
    (c.contains key = false ∧ (c.place key r n).used = charge c.used n ∧
      (c.place key r n).entries.toList.Perm (⟨key, r, n, c.clock⟩ :: c.entries.toList)) ∨
    ∃ (old : CacheEntry) (others : List CacheEntry), c.contains key = true ∧ old.key = key ∧
      c.entries.toList.Perm (old :: others) ∧
      (c.place key r n).used = charge (refund c.used old.size) n ∧
      (c.place key r n).entries.toList.Perm (⟨key, r, n, c.clock⟩ :: others) := by
  cases hi : c.index[key]? with
  | none =>
      refine .inl ⟨by rw [contains, Std.HashMap.contains_eq_isSome_getElem?, hi]; rfl, ?_, ?_⟩
      · rw [place, hi]
      · simp [place, hi]
  | some slot =>
      obtain ⟨old, hold, hkey⟩ := (h.indexed key slot).1 hi
      obtain ⟨hslot, hget⟩ := Array.getElem?_eq_some_iff.1 hold
      have hslot : slot < c.entries.toList.length := by simpa using hslot
      refine .inr ⟨old, c.entries.toList.eraseIdx slot,
        by rw [contains, Std.HashMap.contains_eq_isSome_getElem?, hi]; rfl, hkey, ?_, ?_, ?_⟩
      · rw [← hget, ← Array.getElem_toList]
        exact (List.getElem_cons_eraseIdx_perm hslot).symm
      · simp [place, hi, hold]
      · simpa [place, hi] using List.set_perm_cons_eraseIdx hslot _

theorem Balanced.indexed_place (h : c.Balanced) (key : RecordKey) (r : Record) (n : Nat)
    (key' : RecordKey) (slot : Nat) : (c.place key r n).index[key']? = some slot ↔
      ∃ e : CacheEntry, (c.place key r n).entries[slot]? = some e ∧ e.key = key' := by
  have indexed := h.indexed key' slot
  cases hi : c.index[key]? with
  | none =>
      have fresh : ∀ e : CacheEntry, c.entries[slot]? = some e → e.key ≠ key := by
        rintro e he rfl
        rw [(h.indexed e.key slot).2 ⟨e, he, rfl⟩] at hi
        cases hi
      have inside : ∀ e : CacheEntry, c.entries[slot]? = some e → slot ≠ c.entries.size :=
        fun e he => Nat.ne_of_lt (Array.getElem?_eq_some_iff.1 he).1
      simp only [place, hi, Std.HashMap.getElem?_insert, Array.getElem?_push, beq_iff_eq]
      by_cases hs : slot = c.entries.size
      · subst hs
        by_cases hk : key = key'
        · simp [hk]
        · have vacant : c.index[key']? ≠ some c.entries.size := by simp [indexed]
          simp [hk, vacant]
      · by_cases hk : key = key'
        · subst hk
          simpa [hs, Ne.symm hs] using fresh
        · simp [hs, hk, indexed]
  | some i =>
      obtain ⟨old, hold, hkey⟩ := (h.indexed key i).1 hi
      have inside := (Array.getElem?_eq_some_iff.1 hold).1
      simp only [place, hi, Array.getElem?_setIfInBounds]
      by_cases hs : i = slot
      · subst hs
        simp only [indexed, hold, inside, if_true]
        simp [hkey]
      · simp only [if_neg hs, indexed]

theorem Balanced.place (h : c.Balanced) (key : RecordKey) (r : Record) (n : Nat) :
    (c.place key r n).Balanced := by
  refine ⟨h.indexed_place key r n, ?_⟩
  rcases h.place_cases key r n with ⟨_, used, perm⟩ | ⟨old, others, _, _, perm, used, perm'⟩
  · have more : (c.place key r n).bytes = n + c.bytes := bytes_of_perm perm
    rw [used, h.used, charge_mod, more, Nat.add_comm]
  · have before := bytes_of_perm perm
    have after : (c.place key r n).bytes = n + (others.map (·.size)).sum := bytes_of_perm perm'
    rw [used, h.used, refund_mod (by omega), charge_mod, before, after, Nat.add_sub_cancel_left,
      Nat.add_comm]

/-- The key that a record is placed at has no other record from then on. -/
theorem Balanced.mem_place (h : c.Balanced) (he : e ∈ (c.place key r n).entries.toList) :
    e.key = key ∧ e.record = r ∨ e.key ≠ key ∧ e ∈ c.entries.toList := by
  -- The new record and the others of its list have different slots, so different keys.
  have alone : ∀ others : List CacheEntry,
      (c.place key r n).entries.toList.Perm (⟨key, r, n, c.clock⟩ :: others) →
      e ∈ others → e.key ≠ key := by
    intro others perm hother hkey
    have keys := (perm.map (·.key)).nodup_iff.1 (h.place key r n).nodup_keys
    rw [List.map_cons, List.nodup_cons] at keys
    exact keys.1 (List.mem_map.2 ⟨e, hother, hkey⟩)
  rcases h.place_cases key r n with ⟨_, _, perm⟩ | ⟨old, others, _, _, perm, _, perm'⟩
  · rcases List.mem_cons.1 (perm.mem_iff.1 he) with rfl | hother
    · exact .inl ⟨rfl, rfl⟩
    · exact .inr ⟨alone _ perm hother, hother⟩
  · rcases List.mem_cons.1 (perm'.mem_iff.1 he) with rfl | hother
    · exact .inl ⟨rfl, rfl⟩
    · exact .inr ⟨alone _ perm' hother, perm.mem_iff.2 (List.mem_cons_of_mem old hother)⟩

theorem Balanced.settles_insert (h : c.Balanced) (key : RecordKey) (r : Record) (n : Nat) :
    (c.place key r n).Settles (c.insert key r n) :=
  (h.place key r n).settles_shrink (Nat.le_refl _)

theorem Balanced.insert (h : c.Balanced) (key : RecordKey) (r : Record) (n : Nat) :
    (c.insert key r n).Balanced :=
  (h.settles_insert key r n).balanced (h.place key r n)

/-- A lookup changes when an entry has been used last, and nothing else about it. -/
theorem map_get (c : Cache) (key : RecordKey) :
    (c.get key).2.entries.toList.map (fun e => (e.key, e.record, e.size)) =
      c.entries.toList.map fun e => (e.key, e.record, e.size) := by
  rw [get]
  split
  · rfl
  · apply List.ext_getElem?
    intro i
    simp only [List.getElem?_map, Array.getElem?_toList, Array.getElem?_modify]
    split
    · simp [Function.comp_def]
    · rfl

theorem bytes_get (c : Cache) (key : RecordKey) : (c.get key).2.bytes = c.bytes := by
  have sizes := congrArg (fun entries => (entries.map (·.2.2)).sum) (map_get c key)
  simpa [bytes, Function.comp_def] using sizes

theorem Balanced.get (h : c.Balanced) (key : RecordKey) : (c.get key).2.Balanced := by
  have kept : (c.get key).2.index = c.index ∧ (c.get key).2.used = c.used := by
    rw [Cache.get]
    split <;> exact ⟨rfl, rfl⟩
  refine ⟨fun key' slot => ?_, ?_⟩
  · have entry := congrArg (fun entries => (entries[slot]?).map (·.1)) (map_get c key)
    simp only [List.getElem?_map, Array.getElem?_toList, Option.map_map] at entry
    rw [kept.1, h.indexed]
    simpa [Option.map_eq_some_iff, Function.comp_def] using
      congrArg (· = some key') entry.symm
  · rw [kept.2, h.used, bytes_get]

inductive Operation
  | get (key : RecordKey)
  | contains (key : RecordKey)
  | insert (key : RecordKey) (record : Record) (size : Nat)
  | clear

namespace Operation

/-- What was put last at each key, after the operation. -/
def note (known : RecordKey → Option Record) : Operation → RecordKey → Option Record
  | .insert key record _ => Function.update known key (some record)
  | .clear => fun _ => none
  | _ => known

/-- The number of records put at keys that had none. -/
def added (c : Cache) : Operation → Nat
  | .insert key _ _ => if c.contains key then 0 else 1
  | _ => 0

def cleared (c : Cache) : Operation → Nat
  | .clear => c.size
  | _ => 0

end Operation

def perform (c : Cache) : Operation → Cache
  | .get key => (c.get key).2
  | .contains _ => c
  | .insert key record size => c.insert key record size
  | .clear => c.clear

def run (c : Cache) (ops : List Operation) : Cache := ops.foldl perform c

/-- What the operations put last at each key, later than they cleared the cache. -/
def latest (ops : List Operation) : RecordKey → Option Record :=
  ops.foldl Operation.note fun _ => none

/-- Adds up a count over the operations, each taken in the cache that it meets. -/
def total (count : Cache → Operation → Nat) : Cache → List Operation → Nat
  | _, [] => 0
  | c, op :: ops => count c op + total count (c.perform op) ops

def Agrees (c : Cache) (known : RecordKey → Option Record) : Prop :=
  ∀ e ∈ c.entries.toList, known e.key = some e.record

structure Orderly (c : Cache) (known : RecordKey → Option Record) : Prop where
  balanced : c.Balanced
  within : c.used ≤ c.capacity
  agrees : c.Agrees known

variable {known : RecordKey → Option Record}

theorem Balanced.agrees_place (h : c.Balanced) (agrees : c.Agrees known) (key : RecordKey)
    (r : Record) (n : Nat) :
    (c.place key r n).Agrees (Function.update known key (some r)) := by
  intro e he
  rcases h.mem_place he with ⟨rfl, rfl⟩ | ⟨hkey, hold⟩
  · exact Function.update_self ..
  · rw [Function.update_of_ne hkey]
    exact agrees e hold

theorem Agrees.get (agrees : c.Agrees known) (key : RecordKey) : (c.get key).2.Agrees known := by
  intro e he
  have kept : (e.key, e.record, e.size) ∈ c.entries.toList.map fun e => (e.key, e.record, e.size) :=
    map_get c key ▸ List.mem_map_of_mem he
  obtain ⟨d, hd, heq⟩ := List.mem_map.1 kept
  simp only [Prod.mk.injEq] at heq
  obtain ⟨hkey, hrecord, -⟩ := heq
  rw [← hkey, ← hrecord]
  exact agrees d hd

theorem Orderly.of_get (h : c.Orderly known) {key : RecordKey} (hr : (c.get key).1 = some r) :
    known key = some r := by
  rw [Cache.get] at hr
  split at hr
  · cases hr
  · next slot hslot =>
    obtain ⟨e, he, rfl⟩ := (h.balanced.indexed key slot).1 hslot
    rw [he] at hr
    cases hr
    exact h.agrees e (Array.mem_toList_iff.2 (Array.mem_of_getElem? he))

theorem Orderly.insert (h : c.Orderly known) (key : RecordKey) (r : Record) (n : Nat) :
    (c.insert key r n).Orderly (Function.update known key (some r)) := by
  have settles := h.balanced.settles_insert key r n
  refine ⟨h.balanced.insert key r n, ?_, ?_⟩
  · rw [settles.capacity]
    exact settles.used_le (h.balanced.place key r n)
  · exact fun e he => h.balanced.agrees_place h.agrees key r n e (settles.subset he)

theorem Orderly.perform (h : c.Orderly known) (op : Operation) :
    (c.perform op).Orderly (op.note known) := by
  cases op with
  | get key =>
      have kept : (c.get key).2.used = c.used ∧ (c.get key).2.capacity = c.capacity := by
        rw [Cache.get]
        split <;> exact ⟨rfl, rfl⟩
      exact ⟨h.balanced.get key, kept.1 ▸ kept.2 ▸ h.within, h.agrees.get key⟩
  | contains key => exact h
  | insert key r n => exact h.insert key r n
  | clear => exact ⟨balanced_clear c, Nat.zero_le _, by simp [Agrees, Cache.perform, clear]⟩

theorem Orderly.run (h : c.Orderly known) (ops : List Operation) :
    (c.run ops).Orderly (ops.foldl Operation.note known) := by
  induction ops generalizing c known with
  | nil => exact h
  | cons op ops ih => exact ih (h.perform op)

end VoxelGrammar.Cache
