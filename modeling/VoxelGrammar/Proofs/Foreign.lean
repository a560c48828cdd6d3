import VoxelGrammar.Proofs.RoundTrip
import VoxelGrammar.Proofs.Writes

/-!
Block maps read from bytes of any origin. Reading takes the origins and the cells that it meets at
their word, so a map may come out that lists blocks off the grid of subchunks, where no position
leads, or in cells that a subchunk does not have. Such a map is read without complaint and works
until one of its blocks is asked for or one of its lists turns into an array. A map that lists
nothing of the kind can be relied on, whatever is written to it later.
-/

namespace VoxelGrammar

variable {α β : Type}

/-! ### What readers yield -/

def Yields (P : α → Prop) (r : BlockMap.Reader α) : Prop :=
  ∀ bytes x rest, r.run bytes = .ok (x, rest) → P x

namespace Yields

variable {P : α → Prop} {Q : β → Prop} {r : BlockMap.Reader α} {k : α → BlockMap.Reader β}

theorem trivial (r : BlockMap.Reader α) : Yields (fun _ => True) r := fun _ _ _ _ => True.intro

theorem pure {x : α} (h : P x) : Yields P (pure x) := by
  intro bytes y rest hr
  cases hr
  exact h

theorem throw (e : DecodeError) : Yields P (throw e) := by
  intro bytes x rest hr
  cases hr

theorem lift {x : Except DecodeError α} (h : ∀ v, x = .ok v → P v) : Yields P (liftM x) := by
  intro bytes v rest hr
  cases x with
  | error e => cases hr
  | ok u =>
      cases hr
      exact h _ rfl

theorem bind (hr : Yields P r) (hk : ∀ x, P x → Yields Q (k x)) : Yields Q (r >>= k) := by
  intro bytes y rest h
  rw [StateT.run_bind] at h
  cases hx : r.run bytes with
  | error e =>
      rw [hx] at h
      cases h
  | ok p =>
      rw [hx] at h
      exact hk p.1 (hr bytes p.1 p.2 hx) p.2 y rest h

end Yields

namespace BlockMap

theorem length_words_le (bytes : Bytes) : 2 * (words bytes).length ≤ bytes.length := by
  fun_induction words bytes with
  | case1 a b rest ih =>
      simp only [List.length_cons]
      omega
  | case2 => simp

theorem length_pairs_le (l : List α) : 2 * (pairs l).length ≤ l.length := by
  fun_induction pairs l with
  | case1 a b rest ih =>
      simp only [List.length_cons]
      omega
  | case2 => simp

theorem take_yields (n : Nat) : Yields (fun bytes => bytes.length = n) (take n) := by
  intro bytes front rest h
  simp only [take, StateT.run] at h
  split at h
  · next hn =>
    cases h
    exact hn
  · cases h

/-- The length of a list that is read is the word in front of it. -/
theorem readCells_yields : Yields Cells.Countable readCells := by
  refine .bind (.trivial _) fun kind _ => ?_
  split
  · refine .bind (.trivial _) fun count _ => .bind (take_yields _) fun bytes hbytes => .pure ?_
    rintro writes ⟨⟩
    have hwords := length_words_le bytes
    have hpairs := length_pairs_le (words bytes)
    have hcount := count.toNat_lt
    rw [List.size_toArray]
    omega
  · split
    · refine .bind (.trivial _) fun bytes _ => ?_
      dsimp only
      split
      · refine .pure ?_
        rintro writes ⟨⟩
      · exact .throw _
    · exact .throw _

/-- The number of subchunks that are read is the word in front of them. -/
theorem readEntries_yields (n : Nat) {m : BlockMap} (hm : ∀ e ∈ m.entries, e.2.Countable) :
    Yields (fun m' => m'.size ≤ m.size + n ∧ ∀ e ∈ m'.entries, e.2.Countable)
      (readEntries n m) := by
  induction n generalizing m with
  | zero => exact .pure ⟨Nat.le_refl _, hm⟩
  | succ n ih =>
      refine .bind (.trivial _) fun origin _ => .bind readCells_yields fun cells hcells =>
        .bind (P := fun m' => m'.size ≤ m.size + 1 ∧ ∀ e ∈ m'.entries, e.2.Countable)
          (.lift fun m₁ hm₁ => ?_) fun m₁ ⟨size, hm₁⟩ => ?_
      · obtain ⟨m₂, hm₂, size, mem, _⟩ := update_eq_ok (m := m) (p := origin)
          (f := fun _ => (.ok cells : Except DecodeError Cells)) rfl
        obtain rfl : m₂ = m₁ := Except.ok.inj (hm₂.symm.trans hm₁)
        refine ⟨size, fun e he => ?_⟩
        rcases mem e he with he | rfl
        · exact hm e he
        · exact hcells
      · intro bytes m' rest h
        obtain ⟨size', hm'⟩ := ih hm₁ bytes m' rest h
        exact ⟨by omega, hm'⟩

/-- What is read can be written to bytes without loss. -/
theorem readMap_yields :
    Yields (fun m => m.size < 2 ^ 32 ∧ ∀ e ∈ m.entries, e.2.Countable) readMap := by
  refine .bind (.trivial _) fun front _ => ?_
  split
  · exact .bind (.throw (P := fun _ => False) _) fun _ h => h.elim
  · refine .bind (.trivial _) fun v _ => ?_
    split
    · exact .bind (.throw (P := fun _ => False) _) fun _ h => h.elim
    · refine .bind (.trivial _) fun count _ bytes m rest h => ?_
      obtain ⟨size, countable⟩ := readEntries_yields count.toNat (m := empty) (by simp [empty])
        bytes m rest h
      have hcount := count.toNat_lt
      have nothing : empty.size = 0 := rfl
      exact ⟨by omega, countable⟩

theorem countable_of_decode {bytes : Bytes} {m : BlockMap} (h : decode bytes = .ok m) :
    m.size < 2 ^ 32 ∧ ∀ e ∈ m.entries, e.2.Countable := by
  cases hr : readMap.run bytes with
  | error e =>
      change (·.1) <$> readMap.run bytes = _ at h
      rw [hr] at h
      cases h
  | ok p =>
      change (·.1) <$> readMap.run bytes = _ at h
      rw [hr] at h
      cases h
      exact readMap_yields bytes p.1 p.2 hr

/-! ### Maps that can be relied on -/

/-- Every block that the map lists is found at its position: in each subchunk, the one that is
written last in a cell. -/
def ShowsAll (m : BlockMap) : Prop :=
  ∀ e ∈ m.entries, ∀ cell b, e.2.written.reverse.lookup cell = some b →
    m.block (e.1 + Pos.ofCell cell.toNat) = .ok b

/-- Whatever blocks are written later and whatever room is made for them, nothing fails, all blocks
that are listed are found, and a position has the block last written there or else the one it had. -/
def Dependable (m : BlockMap) : Prop :=
  ∀ ops : List Operation, (∀ op ∈ ops, op.isCellWrite = false) →
    ∃ m', ops.foldlM perform m = .ok m' ∧ m'.ShowsAll ∧
      ∀ q b, m.block q = .ok b →
        m'.block q = .ok (((ops.filterMap Operation.target).reverse.lookup q).getD b)

def Placed (m : BlockMap) : Prop :=
  ∀ e ∈ m.entries, e.2.written ≠ [] → e.1.Aligned ∧ e.2.Addressed

variable {m m' : BlockMap} {p o : Pos} {c : Cells}

theorem lookup_of_mem {l : List (Pos × Cells)} (ordered : l.Pairwise fun a b => a.1.Precedes b.1)
    (hc : (o, c) ∈ l) : l.lookup o = some c := by
  induction l with
  | nil => cases hc
  | cons e l ih =>
      obtain ⟨first, ordered⟩ := List.pairwise_cons.1 ordered
      rw [lookup_cons]
      rcases List.mem_cons.1 hc with rfl | hc
      · exact if_pos rfl
      · have apart : o ≠ e.1 := fun heq => Pos.precedes_irrefl o (by simpa [heq] using first _ hc)
        rw [if_neg apart]
        exact ih ordered hc

theorem Placed.addressed (h : m.Placed) {e : Pos × Cells} (he : e ∈ m.entries) :
    e.2.Addressed := by
  by_cases written : e.2.written = []
  · obtain ⟨o, c⟩ := e
    cases c with
    | flat blocks => trivial
    | sparse writes =>
        obtain rfl : writes = #[] := Array.toList_eq_nil_iff.1 written
        exact Cells.addressed_empty
  · exact (h e he written).2

theorem Placed.cellsAt (h : m.Placed) (o : Pos) : (m.cellsAt o).Addressed := by
  unfold BlockMap.cellsAt
  cases ho : m.cells? o with
  | none => exact Cells.addressed_empty
  | some c => exact h.addressed (mem_of_lookup ho)

theorem Placed.showsAll (h : m.Placed) : m.ShowsAll := by
  rintro ⟨o, c⟩ he cell b hb
  have hmem : (cell, b) ∈ c.written := List.mem_reverse.1 (mem_of_lookup hb)
  obtain ⟨aligned, addressed⟩ := h (o, c) he (List.ne_nil_of_mem hmem)
  have inside : cell.toNat < 4096 := Cells.written_addressed addressed _ hmem
  have here : (o + Pos.ofCell cell.toNat).cell = cell :=
    UInt16.toNat_inj.1 (Pos.cell_add_ofCell aligned inside)
  have listed : m.cells? o = some c := lookup_of_mem m.ordered he
  rw [block_eq, view, Pos.subchunk_add_ofCell aligned, here, BlockMap.cellsAt, listed,
    Option.getD_some, ← c.overlay_written, overlay_apply, hb, Option.getD_some]

/-- A map stays placed if the cells of a subchunk are replaced by cells in range. -/
theorem Placed.update (h : m.Placed) {d : Cells} (hd : d.Addressed)
    (mem : ∀ e ∈ m'.entries, e ∈ m.entries ∨ e = (p.subchunk, d)) : m'.Placed := by
  intro e he written
  rcases mem e he with he | rfl
  · exact h e he written
  · exact ⟨p.aligned_subchunk, hd⟩

theorem Placed.perform (h : m.Placed) {op : Operation} (hop : op.isCellWrite = false) :
    Succeeds (fun m' => m'.Placed ∧ m'.view = overlay m.view op.target.toList) (m.perform op) := by
  cases op with
  | writeCell p cell b inside => cases hop
  | write p b =>
      obtain ⟨d, hd, addressed, shows, _⟩ :=
        Cells.reserve_write_succeeds (h.cellsAt p.subchunk) p.cell_lt b
      obtain ⟨m', hm', _, mem, cells⟩ := update_eq_ok
        (f := fun c => do (← c.reserve 1).write p.cell b) hd
      refine ⟨m', hm', h.update addressed mem, ?_⟩
      have written := view_eq_overlay cells [(p.cell, b)] (by simpa using p.cell_lt) shows
      simpa [placed, Operation.target, Pos.subchunk_add_ofCell_cell] using written
  | reserve p volume =>
      obtain ⟨d, hd, addressed, shows, _⟩ := Cells.reserve_succeeds (h.cellsAt p.subchunk) volume
      obtain ⟨m', hm', _, mem, cells⟩ := update_eq_ok hd
      exact ⟨m', hm', h.update addressed mem, view_eq_overlay cells [] (by simp) shows⟩

theorem Placed.foldlM_perform (h : m.Placed) {ops : List Operation}
    (hops : ∀ op ∈ ops, op.isCellWrite = false) :
    Succeeds (fun m' => m'.Placed ∧ m'.view = overlay m.view (ops.filterMap Operation.target))
      (ops.foldlM BlockMap.perform m) := by
  induction ops generalizing m with
  | nil => exact .ok ⟨h, rfl⟩
  | cons op ops ih =>
      obtain ⟨hop, hops⟩ := List.forall_mem_cons.1 hops
      rw [List.foldlM_cons]
      refine (h.perform hop).bind fun m₁ ⟨h₁, shows⟩ => (ih h₁ hops).imp fun m₂ ⟨h₂, shows'⟩ =>
        ⟨h₂, ?_⟩
      rw [shows', shows, ← overlay_append]
      cases ht : op.target with
      | none => simp [ht]
      | some w => simp [ht]

theorem Placed.dependable (h : m.Placed) : m.Dependable := by
  intro ops hops
  obtain ⟨m', hm', placed, shows⟩ := h.foldlM_perform hops
  refine ⟨m', hm', placed.showsAll, fun q b hb => ?_⟩
  rw [block_eq] at hb
  rw [block_eq, shows, overlay_apply, Except.ok.inj hb]

/-! ### Maps that cannot -/

/-- A map is changed only if the cells that are there can be. -/
theorem of_updateAt_eq_ok {f : Cells → Except Fault Cells} (h : m.updateAt p f = .ok m') :
    ∃ d, f (m.cellsAt p.subchunk) = .ok d ∧
      ∀ o, m'.cells? o = if o = p.subchunk then some d else m.cells? o := by
  cases hd : f (m.cellsAt p.subchunk) with
  | ok d =>
      obtain ⟨m₁, hm₁, _, _, cells⟩ := update_eq_ok hd
      obtain rfl : m₁ = m' := Except.ok.inj (hm₁.symm.trans h)
      exact ⟨d, rfl, cells⟩
  | error e =>
      unfold updateAt update at h
      split at h
      · next entries h' =>
        rw [alter_eq m.ordered, ← cells?, ← cellsAt, hd] at h'
        cases h'
      · cases h

theorem addressed_of_foldlM {writes : List (UInt16 × Block)} {blocks blocks' : Vector Block 4096}
    (h : writes.foldlM (fun blocks w => Cells.setFlat blocks w.1 w.2) blocks = .ok blocks') :
    ∀ w ∈ writes, w.1.toNat < subchunkVolume := by
  induction writes generalizing blocks with
  | nil => simp
  | cons w writes ih =>
      rw [List.foldlM_cons] at h
      by_cases inside : w.1.toNat < 4096
      · rw [Cells.setFlat, dif_pos inside] at h
        exact List.forall_mem_cons.2 ⟨inside, ih h⟩
      · rw [Cells.setFlat, dif_neg inside] at h
        cases h

/-- A list turns into an array only if its writes are to cells of the array. -/
theorem addressed_of_reserve {d : Cells} (countable : c.Countable)
    (h : c.reserve 1025 = .ok d) : c.Addressed := by
  cases c with
  | flat blocks => trivial
  | sparse writes =>
      have size := countable writes rfl
      have limit : Cells.sparseLimit = 1024 := rfl
      have long : (writes.size + 1025).toUInt64.toNat = writes.size + 1025 :=
        Nat.mod_eq_of_lt (by omega)
      rw [Cells.reserve, long, if_neg (by omega)] at h
      simp only [← Array.foldlM_toList] at h
      cases hb : writes.toList.foldlM (fun blocks w => Cells.setFlat blocks w.1 w.2)
          (.replicate 4096 Block.undefined) with
      | error e =>
          simp only [hb] at h
          cases h
      | ok blocks => exact fun w hw => addressed_of_foldlM hb w (Array.mem_toList_iff.2 hw)

/-- A block off the grid is not the one that is found after another one is written over it. -/
theorem Dependable.aligned (h : m.Dependable) (hc : (o, c) ∈ m.entries) (written : c.written ≠ []) :
    o.Aligned := by
  by_contra stray
  obtain ⟨⟨cell, b⟩, before, hw⟩ := List.exists_cons_of_ne_nil
    (fun h => written (List.reverse_eq_nil_iff.1 h))
  have listed : c.written.reverse.lookup cell = some b := by
    rw [hw, lookup_cons, if_pos rfl]
  let q := o + Pos.ofCell cell.toNat
  obtain ⟨m', hm', shows, found⟩ := h [.write q (b + 1)] (by simp [Operation.isCellWrite])
  simp only [List.foldlM_cons, List.foldlM_nil, bind_pure] at hm'
  obtain ⟨d, _, cells⟩ := of_updateAt_eq_ok hm'
  have off : o ≠ q.subchunk := fun heq => stray (heq ▸ q.aligned_subchunk)
  have kept : (o, c) ∈ m'.entries := by
    refine mem_of_lookup (?_ : m'.cells? o = some c)
    rw [cells, if_neg off]
    exact lookup_of_mem m.ordered hc
  have other := found q _ (block_eq m q)
  rw [shows _ kept cell b listed] at other
  simp [Operation.target] at other

theorem Dependable.placed (h : m.Dependable) (countable : ∀ e ∈ m.entries, e.2.Countable) :
    m.Placed := by
  rintro ⟨o, c⟩ hc written
  have aligned : o.Aligned := h.aligned hc written
  obtain ⟨m', hm', _⟩ := h [.reserve o 1025] (by simp [Operation.isCellWrite])
  simp only [List.foldlM_cons, List.foldlM_nil, bind_pure] at hm'
  obtain ⟨d, hd, _⟩ := of_updateAt_eq_ok hm'
  have here : m.cellsAt o.subchunk = c := by
    rw [show o.subchunk = o from aligned, cellsAt, cells?, lookup_of_mem m.ordered hc]
    rfl
  rw [here] at hd
  exact ⟨aligned, addressed_of_reserve (countable _ hc) hd⟩

/-- A map that is read from bytes has a block for each cell of an array, and it is the same again
after it was written and read once more. It can be relied on exactly if the blocks that it lists
are in the cells of subchunks. -/
theorem decoded_dependable_iff {bytes : Bytes} (h : decode bytes = .ok m) :
    (∀ e ∈ m.entries, ∀ blocks, e.2 = .flat blocks → blocks.toArray.size = 4096) ∧
      decode m.encode = .ok m ∧
      (m.Dependable ↔
        ∀ e ∈ m.entries, e.2.written ≠ [] → e.1.Aligned ∧ e.2.Addressed) := by
  obtain ⟨size, countable⟩ := countable_of_decode h
  exact ⟨fun _ _ blocks _ => blocks.size_toArray, decode_eq size countable,
    fun dependable => dependable.placed countable, Placed.dependable⟩

/-- A list with a cell that no subchunk has, and a block off the grid. -/
def stray : BlockMap :=
  ⟨[(.zero, .sparse #[(4096, 7)]), (⟨1, 0, 0⟩, .sparse #[(0, 7)])], by decide⟩

theorem decoded_dependable_iff_stray :
    decode stray.encode = .ok stray ∧ ¬ stray.Dependable := by
  have decoded : decode stray.encode = .ok stray := by decide +kernel
  have outside : ¬ ∀ e ∈ stray.entries, e.2.written ≠ [] → e.1.Aligned ∧ e.2.Addressed := by
    intro h
    have inside := (h (.zero, .sparse #[(4096, 7)]) List.mem_cons_self (by decide)).2
    exact absurd (inside (4096, 7) (by simp)) (by decide)
  exact ⟨decoded, fun dependable => outside ((decoded_dependable_iff decoded).2.2.1 dependable)⟩

/-- Bytes that are read although the map cannot be relied on: making room fails, and one of the
blocks is not found. -/
theorem decode_stray_breaks :
    decode stray.encode = .ok stray ∧
      stray.perform (.reserve .zero 1025) = .error .cellOutOfRange ∧
      (⟨1, 0, 0⟩, .sparse #[(0, 7)]) ∈ stray.entries ∧
      stray.block ⟨1, 0, 0⟩ = .ok Block.undefined := by
  refine ⟨by decide +kernel, by decide +kernel, by simp [stray], by decide⟩

end BlockMap

end VoxelGrammar
