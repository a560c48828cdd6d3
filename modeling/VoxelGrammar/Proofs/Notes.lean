import VoxelGrammar.Notebook

/-!
What is written down in a notebook stays true. Whatever a notebook answers has been written down
before, under the same page and key, however many records a cache has dropped in the meantime and
whichever slots it has moved the others to. So if only true things are written down, only true
things are read.
-/

namespace VoxelGrammar

variable {μ : Type}

/-- What is taken to be true on the pages of a notebook. -/
structure Facts where
  dimension : Page → FieldId → Dimensionality → Prop
  record : Page → RecordKey → Record → Prop

/-- The shared page, or the page of one of the first `n` contexts. -/
def Page.Below (n : Nat) : Page → Prop
  | .shared => True
  | .context slot => slot < n

structure Facts.Imply (n : Nat) (F G : Facts) : Prop where
  dimension : ∀ page id d, page.Below n → F.dimension page id d → G.dimension page id d
  record : ∀ page key r, page.Below n → F.record page key r → G.record page key r

/-- A notebook that answers what has been written down: `holds F n m` says that in the state `m`,
with the pages of `n` contexts, all answers are true. -/
structure Notebook.Honest (nb : Notebook μ) (holds : Facts → Nat → μ → Prop) : Prop where
  dimension : ∀ {F n m page id d}, holds F n m → nb.dimensionality? m page id = some d →
    F.dimension page id d
  noteDimension : ∀ {F n m page id d}, holds F n m → F.dimension page id d →
    holds F n (nb.noteDimensionality m page id d)
  record : ∀ {F n m page key r}, holds F n m → (nb.record? m page key).1 = some r →
    F.record page key r
  look : ∀ {F n m}, holds F n m → ∀ page key, holds F n (nb.record? m page key).2
  noteRecord : ∀ {F n m page key r}, holds F n m → F.record page key r →
    holds F n (nb.noteRecord m page key r)
  addPage : ∀ {F n m}, holds F n m → holds F (n + 1) (nb.addPage m)
  truncate : ∀ {F n m}, holds F n m → ∀ k, holds F (min k n) (nb.truncate m k)
  imply : ∀ {F G n m}, holds F n m → F.Imply n G → holds G n m

theorem Notebook.honest_blank : Notebook.blank.Honest fun _ _ _ => True := by
  constructor <;> intros <;> trivial

/-- What holds of every entry of a table and of one more holds of every entry of the table with it. -/
theorem of_getElem?_insert {κ β : Type} [BEq κ] [LawfulBEq κ] [Hashable κ] {P : κ → β → Prop}
    {m : Std.HashMap κ β} {key : κ} {value : β} (hm : ∀ k v, m[k]? = some v → P k v)
    (hv : P key value) (k : κ) (v : β) (h : (m.insert key value)[k]? = some v) : P k v := by
  rw [Std.HashMap.getElem?_insert] at h
  split at h
  · next heq =>
    obtain rfl := beq_iff_eq.1 heq
    cases h
    exact hv
  · exact hm k v h

/-! ### The cache -/

namespace Cache

variable {c : Cache} {slot : Nat} {e : CacheEntry} {D D' : FieldId → Dimensionality → Prop} {R R' : RecordKey → Record → Prop}

/-- All values are true, and the index leads to entries of the right key. -/
structure Holds (D : FieldId → Dimensionality → Prop) (R : RecordKey → Record → Prop)
    (c : Cache) : Prop where
  dimension : ∀ id d, c.dimensions[id]? = some d → D id d
  record : ∀ (i : Nat) (e : CacheEntry), c.entries[i]? = some e → R e.key e.record
  indexed : ∀ (key : RecordKey) (slot : Nat), c.index[key]? = some slot →
    ∃ e : CacheEntry, c.entries[slot]? = some e ∧ e.key = key

theorem holds_create (draws : Nat → UInt32) (capacity : Nat) (policy : EvictionPolicy) :
    Holds D R (create draws capacity policy) :=
  ⟨by simp [create], by simp [create], by simp [create]⟩

theorem holds_clear (c : Cache) : Holds D R c.clear :=
  ⟨by simp [clear], by simp [clear], by simp [clear]⟩

theorem Holds.imply (h : c.Holds D R) (hD : ∀ id d, D id d → D' id d)
    (hR : ∀ key r, R key r → R' key r) : c.Holds D' R' :=
  ⟨fun id d hd => hD id d (h.dimension id d hd), fun i e he => hR _ _ (h.record i e he), h.indexed⟩

theorem Holds.rememberDimensionality (h : c.Holds D R) {id : FieldId} {d : Dimensionality}
    (hd : D id d) : (c.rememberDimensionality id d).Holds D R :=
  ⟨of_getElem?_insert h.dimension hd, h.record, h.indexed⟩

theorem Holds.get (h : c.Holds D R) (key : RecordKey) : (c.get key).2.Holds D R := by
  rw [Cache.get]
  split
  · exact ⟨h.dimension, h.record, h.indexed⟩
  · next slot hslot =>
    refine ⟨h.dimension, fun i e he => ?_, fun k i hi => ?_⟩
    · rw [Array.getElem?_modify] at he
      split at he
      · obtain ⟨d, hd, rfl⟩ := Option.map_eq_some_iff.1 he
        exact h.record i d hd
      · exact h.record i e he
    · obtain ⟨e, he, hkey⟩ := h.indexed k i hi
      rw [Array.getElem?_modify, he]
      split
      · exact ⟨_, rfl, hkey⟩
      · exact ⟨e, rfl, hkey⟩

theorem Holds.of_get (h : c.Holds D R) {key : RecordKey} {r : Record}
    (hr : (c.get key).1 = some r) : R key r := by
  rw [Cache.get] at hr
  split at hr
  · cases hr
  · next slot hslot =>
    obtain ⟨e, he, rfl⟩ := h.indexed key slot hslot
    rw [he] at hr
    cases hr
    exact h.record slot e he

theorem getElem?_drop {α : Type} (xs : Array α) {slot : Nat} (hslot : slot < xs.size) (i : Nat) :
    ((xs.swapIfInBounds slot (xs.size - 1)).pop)[i]? =
      if i < xs.size - 1 then if i = slot then xs[xs.size - 1]? else xs[i]? else none := by
  have hlast : xs.size - 1 < xs.size := by omega
  rw [Array.getElem?_pop, Array.size_swapIfInBounds, Array.swapIfInBounds_def, dif_pos hslot,
    dif_pos hlast, Array.getElem?_swap]
  by_cases hi : i < xs.size - 1
  · have hne : xs.size - 1 ≠ i := by omega
    rw [if_pos hi, if_pos hi, if_neg hne, Array.getElem?_eq_getElem hlast]
    by_cases hs : slot = i
    · rw [if_pos hs, if_pos hs.symm]
    · rw [if_neg hs, if_neg (Ne.symm hs)]
  · rw [if_neg hi, if_neg hi]

theorem entries_dropSlot (he : c.entries[slot]? = some e) :
    (c.dropSlot slot).entries = (c.entries.swapIfInBounds slot (c.entries.size - 1)).pop := by
  rw [dropSlot, he]

theorem index_dropSlot (he : c.entries[slot]? = some e) : (c.dropSlot slot).index =
    ((c.dropSlot slot).entries[slot]?).elim (c.index.erase e.key) fun moved =>
      (c.index.erase e.key).insert moved.key slot := by
  rw [entries_dropSlot he, dropSlot, he]
  dsimp only
  cases ((c.entries.swapIfInBounds slot (c.entries.size - 1)).pop)[slot]? with
  | none => rfl
  | some moved => rfl

theorem getElem?_dropSlot (he : c.entries[slot]? = some e) (i : Nat) :
    (c.dropSlot slot).entries[i]? = if i < c.entries.size - 1 then
      if i = slot then c.entries[c.entries.size - 1]? else c.entries[i]? else none := by
  rw [entries_dropSlot he]
  exact getElem?_drop c.entries (Array.getElem?_eq_some_iff.1 he).1 i

/-- An entry that is not dropped stays where it is or, if it is the last, takes the free slot. -/
theorem kept_dropSlot (he : c.entries[slot]? = some e) {i : Nat} (hne : i ≠ slot) {d : CacheEntry}
    (hd : c.entries[i]? = some d) :
    (c.dropSlot slot).entries[slot]? = some d ∨ (c.dropSlot slot).entries[i]? = some d := by
  have hslot := (Array.getElem?_eq_some_iff.1 he).1
  have hlt := (Array.getElem?_eq_some_iff.1 hd).1
  by_cases hi : i < c.entries.size - 1
  · exact .inr (by rw [getElem?_dropSlot he, if_pos hi, if_neg hne, hd])
  · obtain rfl : i = c.entries.size - 1 := by omega
    exact .inl (by rw [getElem?_dropSlot he, if_pos (by omega), if_pos rfl, hd])

/-- A key that is still indexed leads to an entry of that key that has not been dropped. -/
theorem Holds.indexed_erase (h : c.Holds D R) (he : c.entries[slot]? = some e) {key : RecordKey}
    {i : Nat} (hi : (c.index.erase e.key)[key]? = some i) :
    i ≠ slot ∧ ∃ d : CacheEntry, c.entries[i]? = some d ∧ d.key = key := by
  rw [Std.HashMap.getElem?_erase] at hi
  split at hi
  · cases hi
  · next hne =>
    obtain ⟨d, hd, hkey⟩ := h.indexed key i hi
    refine ⟨?_, d, hd, hkey⟩
    rintro rfl
    rw [he] at hd
    cases hd
    exact hne (beq_iff_eq.2 hkey)

/-- The index follows the last entry to the slot that has become free. -/
theorem Holds.indexed_dropSlot (h : c.Holds D R) (he : c.entries[slot]? = some e)
    {key : RecordKey} {i : Nat} (hi : (c.dropSlot slot).index[key]? = some i) :
    ∃ d : CacheEntry, (c.dropSlot slot).entries[i]? = some d ∧ d.key = key := by
  rw [index_dropSlot he] at hi
  cases hmoved : (c.dropSlot slot).entries[slot]? with
  | none =>
      rw [hmoved] at hi
      obtain ⟨hne, d, hd, hkey⟩ := h.indexed_erase he hi
      have stays := (kept_dropSlot he hne hd).resolve_left (by simp [hmoved])
      exact ⟨d, stays, hkey⟩
  | some moved =>
      rw [hmoved, Option.elim_some, Std.HashMap.getElem?_insert] at hi
      split at hi
      · next hk =>
        cases hi
        exact ⟨moved, hmoved, beq_iff_eq.1 hk⟩
      · next hk =>
        obtain ⟨hne, d, hd, hkey⟩ := h.indexed_erase he hi
        refine ⟨d, (kept_dropSlot he hne hd).resolve_left fun hs => hk ?_, hkey⟩
        rw [hmoved] at hs
        cases hs
        exact beq_iff_eq.2 hkey

theorem Holds.dropSlot (h : c.Holds D R) (slot : Nat) : (c.dropSlot slot).Holds D R := by
  cases he : c.entries[slot]? with
  | none =>
      rw [Cache.dropSlot, he]
      exact h
  | some e =>
      have dimensions : (c.dropSlot slot).dimensions = c.dimensions := by rw [Cache.dropSlot, he]
      refine ⟨dimensions ▸ h.dimension, fun i d hd => ?_, fun key i => h.indexed_dropSlot he⟩
      rw [getElem?_dropSlot he] at hd
      split at hd
      · split at hd <;> exact h.record _ d hd
      · cases hd

theorem Holds.evict (h : c.Holds D R) : c.evict.Holds D R := by
  have dropped := h.dropSlot c.victim
  exact ⟨dropped.dimension, dropped.record, dropped.indexed⟩

theorem Holds.shrink (h : c.Holds D R) (n : Nat) : (c.shrink n).Holds D R := by
  induction n generalizing c with
  | zero => exact h
  | succ n ih =>
      rw [Cache.shrink]
      split
      · exact h
      · exact ih h.evict

theorem Holds.place (h : c.Holds D R) {key : RecordKey} {r : Record} (hr : R key r) (size : Nat) :
    (c.place key r size).Holds D R := by
  rw [Cache.place]
  dsimp only
  split
  · next slot hslot =>
    refine ⟨h.dimension, fun i e he => ?_, fun k i hi => ?_⟩
    · rw [Array.getElem?_setIfInBounds] at he
      split at he
      · split at he
        · cases he
          exact hr
        · cases he
      · exact h.record i e he
    · obtain ⟨e, he, hkey⟩ := h.indexed k i hi
      by_cases hs : slot = i
      · subst hs
        obtain ⟨d, hd, hkey'⟩ := h.indexed key slot hslot
        rw [Array.getElem?_setIfInBounds_self, if_pos (Array.getElem?_eq_some_iff.1 he).1]
        rw [hd] at he
        cases he
        exact ⟨_, rfl, hkey'.symm.trans hkey⟩
      · rw [Array.getElem?_setIfInBounds_ne hs]
        exact ⟨e, he, hkey⟩
  · refine ⟨h.dimension, fun i e he => ?_, fun k i hi => ?_⟩
    · rw [Array.getElem?_push] at he
      split at he
      · cases he
        exact hr
      · exact h.record i e he
    · rw [Std.HashMap.getElem?_insert] at hi
      rw [Array.getElem?_push]
      split at hi
      · next hk =>
        cases hi
        rw [if_pos rfl]
        exact ⟨_, rfl, beq_iff_eq.1 hk⟩
      · obtain ⟨e, he, hkey⟩ := h.indexed k i hi
        have hlt := (Array.getElem?_eq_some_iff.1 he).1
        rw [if_neg (by omega)]
        exact ⟨e, he, hkey⟩

theorem Holds.insert (h : c.Holds D R) {key : RecordKey} {r : Record} (hr : R key r) (size : Nat) :
    (c.insert key r size).Holds D R := (h.place hr size).shrink _

end Cache

/-! ### The notebook of programs -/

namespace Memory

variable {m : Memory} {F G : Facts} {n : Nat}

structure Table.Holds (F : Facts) (slot : Nat) (t : Table) : Prop where
  dimension : ∀ id d, t.dimensions[id]? = some d → F.dimension (.context slot) id d
  record : ∀ key r, t.records[key]? = some r → F.record (.context slot) key r

structure Holds (F : Facts) (n : Nat) (m : Memory) : Prop where
  size : m.tables.size = n
  tables : ∀ (slot : Nat) (t : Table), m.tables[slot]? = some t → Table.Holds F slot t
  cache : m.cache.Holds (F.dimension .shared) (F.record .shared)

theorem Table.holds_empty (slot : Nat) : Table.Holds F slot .empty :=
  ⟨by simp [VoxelGrammar.Table.empty], by simp [VoxelGrammar.Table.empty]⟩

theorem Holds.table (h : m.Holds F n) (slot : Nat) : Table.Holds F slot (m.table slot) := by
  rw [Memory.table]
  cases ht : m.tables[slot]? with
  | none => exact Table.holds_empty slot
  | some t => exact h.tables slot t ht

theorem Holds.modify (h : m.Holds F n) (slot : Nat) (f : Table → Table)
    (hf : ∀ t, Table.Holds F slot t → Table.Holds F slot (f t)) :
    Holds F n { m with tables := m.tables.modify slot f } := by
  refine ⟨by simpa using h.size, fun i t ht => ?_, h.cache⟩
  dsimp only at ht
  rw [Array.getElem?_modify] at ht
  split at ht
  · next hs =>
    subst hs
    obtain ⟨u, hu, rfl⟩ := Option.map_eq_some_iff.1 ht
    exact hf u (h.tables slot u hu)
  · exact h.tables i t ht

theorem holds_ofCache {c : Cache} (hc : c.Holds (F.dimension .shared) (F.record .shared)) :
    (ofCache c).Holds F 0 :=
  ⟨rfl, fun _ _ h => by simp [ofCache] at h, hc⟩

theorem honest_notebook : notebook.Honest Holds where
  dimension := by
    intro F n m page id d h hd
    cases page with
    | shared => exact h.cache.dimension id d hd
    | context slot => exact (h.table slot).dimension id d hd
  noteDimension := by
    intro F n m page id d h hd
    cases page with
    | shared => exact ⟨h.size, h.tables, h.cache.rememberDimensionality hd⟩
    | context slot =>
        exact h.modify slot _ fun t ht => ⟨of_getElem?_insert ht.dimension hd, ht.record⟩
  record := by
    intro F n m page key r h hr
    cases page with
    | shared => exact h.cache.of_get hr
    | context slot => exact (h.table slot).record key r hr
  look := by
    intro F n m h page key
    cases page with
    | shared => exact ⟨h.size, h.tables, h.cache.get key⟩
    | context slot => exact h
  noteRecord := by
    intro F n m page key r h hr
    cases page with
    | shared => exact ⟨h.size, h.tables, h.cache.insert hr r.memory⟩
    | context slot =>
        exact h.modify slot _ fun t ht => ⟨ht.dimension, of_getElem?_insert ht.record hr⟩
  addPage := by
    intro F n m h
    refine ⟨by simp [notebook, addPage, h.size], fun slot t ht => ?_, h.cache⟩
    simp only [notebook, addPage] at ht
    rw [Array.getElem?_push] at ht
    split at ht
    · cases ht
      exact Table.holds_empty slot
    · exact h.tables slot t ht
  truncate := by
    intro F n m h k
    refine ⟨by simp [notebook, truncate, h.size], fun slot t ht => ?_, h.cache⟩
    refine h.tables slot t ?_
    simp only [notebook, truncate, Array.take, Array.getElem?_extract] at ht
    split at ht
    · simpa using ht
    · cases ht
  imply := by
    intro F G n m h himp
    refine ⟨h.size, fun slot t ht => ?_, h.cache.imply (fun id d => himp.dimension .shared id d trivial)
      fun key r => himp.record .shared key r trivial⟩
    have hlt : slot < n := h.size ▸ (Array.getElem?_eq_some_iff.1 ht).1
    have old := h.tables slot t ht
    exact ⟨fun id d hd => himp.dimension _ _ _ hlt (old.dimension id d hd),
      fun key r hr => himp.record _ _ _ hlt (old.record key r hr)⟩

end Memory

end VoxelGrammar
