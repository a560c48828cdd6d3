import Mathlib.Logic.Function.Basic
import VoxelGrammar.BlockMap.Basic
import VoxelGrammar.Proofs.Grid

/-!
What a block map shows is decided by the writes alone: at every position the last block written
there. Whether the cells of a subchunk are kept as a list or as an array, and when they turn from
one into the other, never shows.
-/

namespace VoxelGrammar

variable {α β ι ε : Type}

/-! ### Computations that succeed -/

def Succeeds (P : α → Prop) (x : Except ε α) : Prop := ∃ v, x = .ok v ∧ P v

namespace Succeeds

variable {P P' : α → Prop} {Q : β → Prop}

theorem ok {v : α} (h : P v) : Succeeds P (.ok v : Except ε α) := ⟨v, rfl, h⟩

/-- Whatever the answer is, it has the property. -/
theorem of_eq {x : Except ε α} {v : α} (hx : Succeeds P x) (hv : x = .ok v) : P v := by
  obtain ⟨u, hu, h⟩ := hx
  exact Except.ok.inj (hv.symm.trans hu) ▸ h

theorem imp {x : Except ε α} (hx : Succeeds P x) (h : ∀ v, P v → P' v) : Succeeds P' x := by
  obtain ⟨v, hv, hP⟩ := hx
  exact ⟨v, hv, h v hP⟩

theorem bind {x : Except ε α} {f : α → Except ε β} (hx : Succeeds P x)
    (hf : ∀ v, P v → Succeeds Q (f v)) : Succeeds Q (x >>= f) := by
  obtain ⟨v, rfl, hv⟩ := hx
  exact hf v hv

theorem mapM {f : α → Except ε β} {xs : List α} (hf : ∀ a ∈ xs, Succeeds Q (f a)) :
    Succeeds (fun ys => ∀ y ∈ ys, Q y) (xs.mapM f) := by
  induction xs with
  | nil => exact .ok (by simp)
  | cons a xs ih =>
      rw [List.mapM_cons]
      refine (hf a List.mem_cons_self).bind fun y hy =>
        (ih fun x hx => hf x (List.mem_cons_of_mem a hx)).bind fun ys hys => .ok ?_
      exact List.forall_mem_cons.2 ⟨hy, hys⟩

end Succeeds

/-! ### Writes in their order -/

section

variable [DecidableEq ι]

theorem lookup_cons (i j : ι) (v : α) (l : List (ι × α)) :
    ((j, v) :: l).lookup i = if i = j then some v else l.lookup i := by
  rw [List.lookup_cons]
  by_cases h : i = j
  · simp [h]
  · rw [beq_false_of_ne h, if_neg h]

theorem mem_of_lookup {l : List (ι × α)} {i : ι} {v : α} (hv : l.lookup i = some v) :
    (i, v) ∈ l := by
  obtain ⟨before, after, rfl, _⟩ := List.lookup_eq_some_iff.1 hv
  exact List.mem_append_right _ List.mem_cons_self

/-- The blocks after the writes: of several to one place the last one counts. -/
def overlay (blocks : ι → Block) (writes : List (ι × Block)) : ι → Block :=
  writes.foldl (fun blocks w => Function.update blocks w.1 w.2) blocks

@[simp] theorem overlay_nil (blocks : ι → Block) : overlay blocks [] = blocks := rfl

@[simp] theorem overlay_cons (blocks : ι → Block) (w : ι × Block) (writes : List (ι × Block)) :
    overlay blocks (w :: writes) = overlay (Function.update blocks w.1 w.2) writes := rfl

theorem overlay_append (blocks : ι → Block) (first rest : List (ι × Block)) :
    overlay blocks (first ++ rest) = overlay (overlay blocks first) rest := List.foldl_append

theorem overlay_apply (blocks : ι → Block) (writes : List (ι × Block)) (i : ι) :
    overlay blocks writes i = (writes.reverse.lookup i).getD (blocks i) := by
  induction writes generalizing blocks with
  | nil => rfl
  | cons w writes ih =>
      obtain ⟨j, b⟩ := w
      rw [overlay_cons, ih, List.reverse_cons, List.lookup_append]
      cases writes.reverse.lookup i with
      | some later => rfl
      | none => by_cases hi : i = j <;> simp [hi, lookup_cons]

/-- Writing one by one to something that shows blocks. -/
theorem Succeeds.overlay {f : β → ι × Block → Except ε β} {view : β → ι → Block} {Q : β → Prop}
    {writes : List (ι × Block)} (hf : ∀ b, ∀ w ∈ writes, Q b →
      Succeeds (fun c => Q c ∧ view c = Function.update (view b) w.1 w.2) (f b w))
    {b : β} (hb : Q b) :
    Succeeds (fun c => Q c ∧ view c = VoxelGrammar.overlay (view b) writes)
      (writes.foldlM f b) := by
  induction writes generalizing b with
  | nil => exact .ok ⟨hb, rfl⟩
  | cons w writes ih =>
      rw [List.foldlM_cons]
      refine (hf b w List.mem_cons_self hb).bind fun c ⟨hc, shows⟩ => ?_
      rw [overlay_cons, ← shows]
      exact ih (fun c x hx => hf c x (List.mem_cons_of_mem w hx)) hc

end

/-! ### The cells of a subchunk -/

def Cells.Addressed : Cells → Prop
  | .sparse writes => ∀ w ∈ writes, w.1.toNat < subchunkVolume
  | .flat _ => True

namespace Cells

variable {c : Cells} {cell : UInt16} {b : Block}

def view : Cells → UInt16 → Block
  | sparse writes => overlay (fun _ => Block.undefined) writes.toList
  | flat blocks => fun cell => blocks[cell.toNat]?.getD Block.undefined

theorem block_eq (c : Cells) (hcell : cell.toNat < subchunkVolume) :
    c.block cell = .ok (c.view cell) := by
  cases c with
  | sparse writes => simp only [block, view, overlay_apply]
  | flat blocks =>
      have room : cell.toNat < 4096 := hcell
      simp [block, view, room]

theorem addressed_empty : empty.Addressed := by simp [empty, Addressed]

theorem setFlat_succeeds (blocks : Vector Block 4096) (hcell : cell.toNat < subchunkVolume)
    (b : Block) : Succeeds (fun blocks' => True ∧
      (flat blocks').view = Function.update (flat blocks).view cell b) (setFlat blocks cell b) := by
  have room : cell.toNat < 4096 := hcell
  rw [setFlat, dif_pos room]
  refine .ok ⟨trivial, ?_⟩
  ext i : 1
  by_cases hi : i = cell
  · subst hi
    simp [view, room]
  · have apart : cell.toNat ≠ i.toNat := fun heq => hi (UInt16.toNat_inj.1 heq).symm
    simp [view, apart, hi]

/-- Making room changes how the cells are kept, if anything. -/
theorem reserve_succeeds (h : c.Addressed) (volume : Nat) :
    Succeeds (fun d => d.Addressed ∧ d.view = c.view ∧ ∀ writes, d = sparse writes →
      c = sparse writes ∧ (writes.size + volume).toUInt64.toNat ≤ sparseLimit)
      (c.reserve volume) := by
  cases c with
  | flat blocks => exact .ok ⟨trivial, rfl, by simp⟩
  | sparse writes =>
      unfold reserve
      dsimp only
      split
      · next short => exact .ok ⟨h, rfl, fun writes' heq => by cases heq; exact ⟨rfl, short⟩⟩
      · refine .bind (P := fun blocks => True ∧ (flat blocks).view = (sparse writes).view) ?_
          fun blocks ⟨_, shows⟩ => .ok ⟨trivial, shows, by simp⟩
        rw [← Array.foldlM_toList]
        have blank : (flat (.replicate 4096 Block.undefined)).view = fun _ => Block.undefined := by
          ext i : 1
          simp only [view, Vector.getElem?_replicate]
          split <;> rfl
        show Succeeds (fun blocks => True ∧ (flat blocks).view =
          overlay (fun _ => Block.undefined) writes.toList) _
        rw [← blank]
        exact .overlay (fun blocks w hw _ =>
          setFlat_succeeds blocks (h w (Array.mem_toList_iff.1 hw)) w.2) trivial

theorem write_succeeds (h : c.Addressed) (hcell : cell.toNat < subchunkVolume) (b : Block) :
    Succeeds (fun d => d.Addressed ∧ d.view = Function.update c.view cell b ∧
      ∀ writes, d = sparse writes → ∃ before, c = sparse before ∧ writes = before.push (cell, b))
      (c.write cell b) := by
  cases c with
  | flat blocks =>
      exact (setFlat_succeeds blocks hcell b).bind fun blocks' ⟨_, shows⟩ =>
        .ok ⟨trivial, shows, by simp⟩
  | sparse writes =>
      refine .ok ⟨fun w hw => ?_, ?_, by simp⟩
      · rcases Array.mem_push.1 hw with hw | rfl
        · exact h w hw
        · exact hcell
      · simp [view, overlay_append]

theorem writeAll_succeeds (h : c.Addressed) {writes : List (UInt16 × Block)}
    (hw : ∀ w ∈ writes, w.1.toNat < subchunkVolume) :
    Succeeds (fun d => d.Addressed ∧ d.view = overlay c.view writes) (c.writeAll writes) :=
  .overlay (fun _ w hmem hc => (write_succeeds hc (hw w hmem) w.2).imp fun _ hd =>
    ⟨hd.1, hd.2.1⟩) h

def Short (c : Cells) : Prop := ∀ writes, c = sparse writes → writes.size ≤ sparseLimit

theorem reserve_write_succeeds (h : c.Addressed) (hcell : cell.toNat < subchunkVolume) (b : Block) :
    Succeeds (fun d => d.Addressed ∧ d.view = Function.update c.view cell b ∧ (c.Short → d.Short))
      (do (← c.reserve 1).write cell b) := by
  refine (reserve_succeeds h 1).bind fun c' ⟨hc', shows, room⟩ =>
    (write_succeeds hc' hcell b).imp fun d ⟨hd, shows', pushed⟩ => ⟨hd, shows ▸ shows', ?_⟩
  intro short writes hwrites
  obtain ⟨before, hbefore, rfl⟩ := pushed writes hwrites
  obtain ⟨hc, room⟩ := room before hbefore
  have := short before hc
  have limit : sparseLimit = 1024 := rfl
  -- A list that is short so far is far from the end of the words.
  have exact_ : (before.size + 1).toUInt64.toNat = before.size + 1 :=
    Nat.mod_eq_of_lt (by omega)
  rw [Array.size_push]
  omega

theorem mem_written_flat {blocks : Vector Block 4096} :
    (cell, b) ∈ (flat blocks).written ↔ blocks[cell.toNat]? = some b ∧ b ≠ Block.undefined := by
  simp only [written, List.mem_map, List.mem_filter, Prod.mk.injEq, Prod.exists,
    List.mk_mem_zipIdx_iff_getElem?, Vector.getElem?_toList]
  constructor
  · rintro ⟨b', i, ⟨hb, defined⟩, rfl, rfl⟩
    have hi : i < 4096 := by
      by_contra hi
      simp [hi] at hb
    have index : i.toUInt16.toNat = i := Nat.mod_eq_of_lt (by omega)
    rw [index]
    exact ⟨hb, by simpa [Block.isUndefined] using defined⟩
  · rintro ⟨hb, defined⟩
    exact ⟨b, cell.toNat, ⟨hb, by simpa [Block.isUndefined] using defined⟩,
      UInt16.ofNat_toNat, rfl⟩

/-- What was written to a subchunk is all that it shows. -/
theorem overlay_written (c : Cells) : overlay (fun _ => Block.undefined) c.written = c.view := by
  cases c with
  | sparse writes => rfl
  | flat blocks =>
      ext cell : 1
      rw [overlay_apply]
      show _ = blocks[cell.toNat]?.getD Block.undefined
      cases hl : (flat blocks).written.reverse.lookup cell with
      | some b =>
          have mem := List.mem_reverse.1 (mem_of_lookup hl)
          rw [(mem_written_flat.1 mem).1]
      | none =>
          rw [List.lookup_eq_none_iff] at hl
          cases hb : blocks[cell.toNat]? with
          | none => rfl
          | some b =>
              by_contra defined
              have mem : (cell, b) ∈ (flat blocks).written :=
                mem_written_flat.2 ⟨hb, Ne.symm defined⟩
              simpa using hl _ (List.mem_reverse.2 mem)

theorem written_addressed (h : c.Addressed) : ∀ w ∈ c.written, w.1.toNat < subchunkVolume := by
  cases c with
  | sparse writes => exact fun w hw => h w (Array.mem_toList_iff.1 hw)
  | flat blocks =>
      intro w hw
      obtain ⟨hb, -⟩ := mem_written_flat.1 hw
      by_contra outside
      have room : ¬ w.1.toNat < 4096 := outside
      simp [room] at hb

end Cells

/-! ### Block maps -/

namespace BlockMap

def Addressed (m : BlockMap) : Prop := ∀ e ∈ m.entries, e.1.Aligned ∧ e.2.Addressed

/-- The cells at an origin, which have none written where the map lacks it. -/
def cellsAt (m : BlockMap) (o : Pos) : Cells := (m.cells? o).getD .empty

def view (m : BlockMap) (p : Pos) : Block := (m.cellsAt p.subchunk).view p.cell

variable {m : BlockMap} {p : Pos} {f : Cells → Except ε Cells}

theorem addressed_empty : empty.Addressed := by
  intro e he
  cases he

theorem block_eq (m : BlockMap) (p : Pos) : m.block p = .ok (m.view p) := by
  unfold block view cellsAt
  cases m.cells? p.subchunk with
  | none => rfl
  | some c => exact c.block_eq p.cell_lt

theorem lookup_of_precedes {l : List (Pos × Cells)} (h : ∀ e ∈ l, p.Precedes e.1) :
    l.lookup p = none := by
  rw [List.lookup_eq_none_iff]
  intro e he
  have apart : p ≠ e.1 := fun heq => Pos.precedes_irrefl p (by simpa [← heq] using h e he)
  simpa using apart

/-- What an origin gets depends on nothing but the cells that it has. -/
theorem alter_eq {l : List (Pos × Cells)} (ordered : l.Pairwise fun a b => a.1.Precedes b.1) :
    alter p f l = f ((l.lookup p).getD .empty) >>= fun d => alter p (fun _ => .ok d) l := by
  induction l with
  | nil => rfl
  | cons e rest ih =>
      obtain ⟨q, c⟩ := e
      obtain ⟨first, ordered⟩ := List.pairwise_cons.1 ordered
      simp only [alter, lookup_cons]
      by_cases hpq : p = q
      · simp only [if_pos hpq]
        rfl
      by_cases before : p.Precedes q
      · have absent : rest.lookup p = none :=
          lookup_of_precedes fun e he => Pos.precedes_trans before (first e he)
        simp only [if_neg hpq, if_pos before, absent]
        rfl
      · simp only [if_neg hpq, if_neg before, ih ordered, bind_assoc]

theorem alter_put {l : List (Pos × Cells)} (d : Cells) :
    ∃ l', alter p (fun _ => .ok d) l = (.ok l' : Except ε _) ∧ l'.length ≤ l.length + 1 ∧
      (∀ e ∈ l', e ∈ l ∨ e = (p, d)) ∧ ∀ o, l'.lookup o = if o = p then some d else l.lookup o := by
  induction l with
  | nil => exact ⟨[(p, d)], rfl, by simp, by simp, fun o => lookup_cons ..⟩
  | cons e rest ih =>
      obtain ⟨q, c⟩ := e
      rw [alter]
      split
      · next hpq =>
        refine ⟨(p, d) :: rest, rfl, by simp, List.forall_mem_cons.2 ⟨.inr rfl,
          fun e he => .inl (List.mem_cons_of_mem _ he)⟩, fun o => ?_⟩
        simp only [lookup_cons, ← hpq]
        split <;> rfl
      · next hpq =>
        split
        · exact ⟨(p, d) :: (q, c) :: rest, rfl, by simp, List.forall_mem_cons.2
            ⟨.inr rfl, fun e he => .inl he⟩, fun o => lookup_cons ..⟩
        · obtain ⟨l', hl', length, mem, lookup⟩ := ih
          refine ⟨(q, c) :: l', by rw [hl']; rfl, by simpa using length, List.forall_mem_cons.2
            ⟨.inl List.mem_cons_self, fun e he => (mem e he).imp (List.mem_cons_of_mem _) id⟩,
            fun o => ?_⟩
          simp only [lookup_cons, lookup]
          by_cases ho : o = p
          · subst ho
            simp [hpq]
          · simp [ho]

theorem alter_eq_ok {l : List (Pos × Cells)} (ordered : l.Pairwise fun a b => a.1.Precedes b.1)
    {d : Cells} (hd : f ((l.lookup p).getD .empty) = .ok d) :
    ∃ l', alter p f l = .ok l' ∧ l'.length ≤ l.length + 1 ∧ (∀ e ∈ l', e ∈ l ∨ e = (p, d)) ∧
      ∀ o, l'.lookup o = if o = p then some d else l.lookup o := by
  rw [alter_eq ordered, hd]
  exact alter_put d

theorem update_eq_ok {d : Cells} (hd : f (m.cellsAt p) = .ok d) :
    ∃ m', m.update p f = .ok m' ∧ m'.size ≤ m.size + 1 ∧
      (∀ e ∈ m'.entries, e ∈ m.entries ∨ e = (p, d)) ∧
      ∀ o, m'.cells? o = if o = p then some d else m.cells? o := by
  obtain ⟨entries, altered, length, mem, lookup⟩ := alter_eq_ok m.ordered hd
  obtain ⟨m', hm', rfl⟩ := update_of_alter altered
  exact ⟨m', hm', length, mem, lookup⟩

theorem updateAt_succeeds (h : m.Addressed) (p : Pos) {P : Cells → Prop}
    (hf : Succeeds P (f (m.cellsAt p.subchunk))) (hP : ∀ d, P d → d.Addressed) :
    Succeeds (fun m' => m'.Addressed ∧ ∃ d, P d ∧
      (∀ e ∈ m'.entries, e ∈ m.entries ∨ e = (p.subchunk, d)) ∧
      ∀ o, m'.cells? o = if o = p.subchunk then some d else m.cells? o) (m.updateAt p f) := by
  obtain ⟨d, hd, holds⟩ := hf
  obtain ⟨m', hm', _, mem, cells⟩ := update_eq_ok hd
  refine ⟨m', hm', fun e he => ?_, d, holds, mem, cells⟩
  rcases mem e he with he | rfl
  · exact h e he
  · exact ⟨p.aligned_subchunk, hP d holds⟩

theorem Addressed.cellsAt (h : m.Addressed) (o : Pos) : (m.cellsAt o).Addressed := by
  unfold BlockMap.cellsAt
  cases ho : m.cells? o with
  | none => exact Cells.addressed_empty
  | some c => exact (h _ (mem_of_lookup ho)).2

def Short (m : BlockMap) : Prop := ∀ e ∈ m.entries, e.2.Short

theorem Short.cellsAt (h : m.Short) (o : Pos) : (m.cellsAt o).Short := by
  unfold BlockMap.cellsAt
  cases ho : m.cells? o with
  | none =>
      intro writes hwrites
      cases hwrites
      exact Nat.zero_le _
  | some c => exact h _ (mem_of_lookup ho)

/-- Writes to the cells of a subchunk, as writes to the world. -/
def placed (o : Pos) (writes : List (UInt16 × Block)) : List (Pos × Block) :=
  writes.map fun w => (o + Pos.ofCell w.1.toNat, w.2)

/-- In its subchunk a position shows what its cell does. -/
theorem overlay_placed {o : Pos} (ho : o.Aligned) {writes : List (UInt16 × Block)}
    (hw : ∀ w ∈ writes, w.1.toNat < subchunkVolume) (blocks : Pos → Block)
    (cells : UInt16 → Block) {q : Pos} (agree : q.subchunk = o → cells q.cell = blocks q) :
    overlay blocks (placed o writes) q =
      if q.subchunk = o then overlay cells writes q.cell else blocks q := by
  induction writes generalizing blocks cells with
  | nil =>
      show blocks q = if q.subchunk = o then cells q.cell else blocks q
      split
      · next hq => exact (agree hq).symm
      · rfl
  | cons w writes ih =>
      obtain ⟨hcell, hw⟩ := List.forall_mem_cons.1 hw
      have origin := Pos.subchunk_add_ofCell ho w.1.toNat
      have cell : (o + Pos.ofCell w.1.toNat).cell = w.1 :=
        UInt16.toNat_inj.1 (Pos.cell_add_ofCell ho hcell)
      show overlay (Function.update blocks (o + Pos.ofCell w.1.toNat) w.2) (placed o writes) q = _
      rw [ih hw _ (Function.update cells w.1 w.2)]
      · split
        · rfl
        · next hq =>
          refine Function.update_of_ne (fun heq => hq ?_) ..
          rw [heq, origin]
      · intro hq
        by_cases hc : q.cell = w.1
        · have here : q = o + Pos.ofCell w.1.toNat :=
            Pos.eq_iff_subchunk_cell.2 ⟨hq.trans origin.symm, hc.trans cell.symm⟩
          rw [hc, here, Function.update_self, Function.update_self]
        · have elsewhere : q ≠ o + Pos.ofCell w.1.toNat := fun heq => hc (heq ▸ cell)
          rw [Function.update_of_ne hc, Function.update_of_ne elsewhere, agree hq]

/-- What the map shows once the cells of a subchunk were written to. -/
theorem view_eq_overlay {m' : BlockMap} {d : Cells}
    (h : ∀ o, m'.cells? o = if o = p.subchunk then some d else m.cells? o)
    (writes : List (UInt16 × Block)) (hw : ∀ w ∈ writes, w.1.toNat < subchunkVolume)
    (hd : d.view = overlay (m.cellsAt p.subchunk).view writes) :
    m'.view = overlay m.view (placed p.subchunk writes) := by
  ext q : 1
  rw [overlay_placed p.aligned_subchunk hw _ (m.cellsAt p.subchunk).view]
  · unfold view
    rw [BlockMap.cellsAt, h]
    split
    · rw [Option.getD_some, hd]
    · rfl
  · intro hq
    rw [view, hq]

theorem write_succeeds (h : m.Addressed) (p : Pos) (b : Block) :
    Succeeds (fun m' => m'.Addressed ∧ m'.view = Function.update m.view p b ∧
      (m.Short → m'.Short)) (m.write p b) := by
  have written := updateAt_succeeds (f := fun c => do (← c.reserve 1).write p.cell b) h p
    (Cells.reserve_write_succeeds (h.cellsAt p.subchunk) p.cell_lt b) fun _ hd => hd.1
  refine written.imp fun m' ⟨hm', d, ⟨_, shows, short⟩, mem, cells⟩ => ⟨hm', ?_, ?_⟩
  · rw [view_eq_overlay cells [(p.cell, b)] (by simpa using p.cell_lt) shows, placed]
    simp [Pos.subchunk_add_ofCell_cell]
  · intro hm e he
    rcases mem e he with he | rfl
    · exact hm e he
    · exact short (hm.cellsAt p.subchunk)

/-- Several cells of one subchunk are written at a time. -/
theorem writeAll_succeeds (h : m.Addressed) (p : Pos) (volume : Nat)
    {writes : List (UInt16 × Block)} (hw : ∀ w ∈ writes, w.1.toNat < subchunkVolume) :
    Succeeds (fun m' => m'.Addressed ∧ m'.view = overlay m.view (placed p.subchunk writes))
      (m.updateAt p fun c => do (← c.reserve volume).writeAll writes) := by
  have cells : Succeeds (fun d => d.Addressed ∧ d.view = overlay (m.cellsAt p.subchunk).view writes)
      (do (← (m.cellsAt p.subchunk).reserve volume).writeAll writes) :=
    (Cells.reserve_succeeds (h.cellsAt p.subchunk) volume).bind fun c ⟨hc, same, _⟩ =>
      same ▸ Cells.writeAll_succeeds hc hw
  have written := updateAt_succeeds (f := fun c => do (← c.reserve volume).writeAll writes) h p cells
    fun _ hd => hd.1
  exact written.imp fun m' ⟨hm', d, ⟨_, shows⟩, _, cells⟩ => ⟨hm', view_eq_overlay cells writes hw shows⟩

/-! ### Sequences of writes -/

inductive Operation
  /-- Writes one block. -/
  | write (p : Pos) (b : Block)
  /-- Makes room in the subchunk of a position. -/
  | reserve (p : Pos) (volume : Nat)
  /-- Writes one cell of the subchunk of a position. -/
  | writeCell (p : Pos) (cell : UInt16) (b : Block) (inside : cell.toNat < subchunkVolume)

namespace Operation

def target : Operation → Option (Pos × Block)
  | write p b => some (p, b)
  | reserve .. => none
  | writeCell p cell b _ => some (p.subchunk + Pos.ofCell cell.toNat, b)

def isCellWrite : Operation → Bool
  | writeCell .. => true
  | _ => false

end Operation

def perform (m : BlockMap) : Operation → Except Fault BlockMap
  | .write p b => m.write p b
  | .reserve p volume => m.updateAt p (·.reserve volume)
  | .writeCell p cell b _ => m.updateAt p (·.write cell b)

/-- Writes all blocks of a map, in the order in which it lists them, to a new one. -/
def replay (m : BlockMap) : Except Fault BlockMap :=
  (m.entries.flatMap fun e => placed e.1 e.2.written).foldlM (fun m w => m.write w.1 w.2) empty

theorem perform_succeeds (h : m.Addressed) (op : Operation) :
    Succeeds (fun m' => m'.Addressed ∧ m'.view = overlay m.view op.target.toList ∧
      (op.isCellWrite = false → m.Short → m'.Short)) (m.perform op) := by
  cases op with
  | write p b => exact (write_succeeds h p b).imp fun m' ⟨hm', shows, short⟩ =>
      ⟨hm', shows, fun _ => short⟩
  | reserve p volume =>
      have reserved := updateAt_succeeds (f := (·.reserve volume)) h p
        (Cells.reserve_succeeds (h.cellsAt p.subchunk) volume) fun _ hd => hd.1
      refine reserved.imp fun m' ⟨hm', d, ⟨_, shows, kept⟩, mem, cells⟩ =>
        ⟨hm', ?_, fun _ hm e he => ?_⟩
      · exact view_eq_overlay cells [] (by simp) shows
      · rcases mem e he with he | rfl
        · exact hm e he
        · exact fun writes hwrites => hm.cellsAt p.subchunk writes (kept writes hwrites).1
  | writeCell p cell b inside =>
      have written := updateAt_succeeds (f := (·.write cell b)) h p
        (Cells.write_succeeds (h.cellsAt p.subchunk) inside b) fun _ hd => hd.1
      refine written.imp fun m' ⟨hm', d, ⟨_, shows, _⟩, _, cells⟩ =>
        ⟨hm', ?_, by simp [Operation.isCellWrite]⟩
      exact view_eq_overlay cells [(cell, b)] (by simpa using inside) shows

theorem foldlM_perform_succeeds (h : m.Addressed) (ops : List Operation) :
    Succeeds (fun m' => m'.Addressed ∧ m'.view = overlay m.view (ops.filterMap Operation.target) ∧
      ((∀ op ∈ ops, op.isCellWrite = false) → m.Short → m'.Short)) (ops.foldlM perform m) := by
  induction ops generalizing m with
  | nil => exact .ok ⟨h, rfl, fun _ hm => hm⟩
  | cons op ops ih =>
      rw [List.foldlM_cons]
      refine (perform_succeeds h op).bind fun m₁ ⟨h₁, shows, short⟩ =>
        (ih h₁).imp fun m₂ ⟨h₂, shows', short'⟩ => ⟨h₂, ?_, fun hops hm => ?_⟩
      · rw [shows', shows, ← overlay_append]
        cases ht : op.target with
        | none => simp [ht]
        | some w => simp [ht]
      · obtain ⟨hop, hops⟩ := List.forall_mem_cons.1 hops
        exact short' hops (short hop hm)

theorem overlay_entries {l : List (Pos × Cells)} (ordered : l.Pairwise fun a b => a.1.Precedes b.1)
    (hl : ∀ e ∈ l, e.1.Aligned ∧ e.2.Addressed) (blocks : Pos → Block) (q : Pos) :
    overlay blocks (l.flatMap fun e => placed e.1 e.2.written) q =
      match l.lookup q.subchunk with
      | none => blocks q
      | some c => overlay (fun _ => blocks q) c.written q.cell := by
  induction l generalizing blocks with
  | nil => rfl
  | cons e l ih =>
      obtain ⟨o, c⟩ := e
      obtain ⟨first, ordered⟩ := List.pairwise_cons.1 ordered
      obtain ⟨⟨ho, hc⟩, hl⟩ := List.forall_mem_cons.1 hl
      have here := overlay_placed ho (Cells.written_addressed hc) blocks (fun _ => blocks q)
        (q := q) fun _ => rfl
      rw [List.flatMap_cons, overlay_append, ih ordered hl, lookup_cons]
      by_cases hq : q.subchunk = o
      · rw [hq, lookup_of_precedes first, if_pos rfl]
        exact here.trans (if_pos hq)
      · rw [if_neg hq]
        rw [if_neg hq] at here
        rw [here]

theorem replay_succeeds (h : m.Addressed) :
    Succeeds (fun m' => m'.view = m.view) m.replay := by
  have written : Succeeds (fun m' => m'.Addressed ∧ m'.view =
      overlay empty.view (m.entries.flatMap fun e => placed e.1 e.2.written)) m.replay :=
    .overlay (fun m w _ hm => (write_succeeds hm w.1 w.2).imp fun _ hm' => ⟨hm'.1, hm'.2.1⟩)
      addressed_empty
  refine written.imp fun m' ⟨_, shows⟩ => ?_
  rw [shows]
  ext q : 1
  rw [overlay_entries m.ordered h]
  show _ = ((m.entries.lookup q.subchunk).getD .empty).view q.cell
  cases m.entries.lookup q.subchunk with
  | none => rfl
  | some c => exact congrFun c.overlay_written q.cell

/-- After any sequence of writes a position has the block last written there. The map's own list
of its blocks, written to a new map, gives the same blocks; an array always has a block for each
cell; and a list only gets long by writes to single cells, which make no room. -/
theorem last_write_shows (ops : List Operation) :
    ∃ m, ops.foldlM perform empty = .ok m ∧
      (∀ q, m.block q =
        .ok (((ops.filterMap Operation.target).reverse.lookup q).getD Block.undefined)) ∧
      (∃ m', m.replay = .ok m' ∧ ∀ q, m'.block q = m.block q) ∧
      (∀ e ∈ m.entries, ∀ blocks, e.2 = .flat blocks → blocks.toArray.size = 4096) ∧
      ((∀ op ∈ ops, op.isCellWrite = false) →
        ∀ e ∈ m.entries, ∀ writes, e.2 = .sparse writes → writes.size ≤ 1024) := by
  obtain ⟨m, hm, addressed, shows, short⟩ := foldlM_perform_succeeds addressed_empty ops
  obtain ⟨m', hm', same⟩ := replay_succeeds addressed
  refine ⟨m, hm, fun q => ?_, ⟨m', hm', fun q => ?_⟩, fun _ _ blocks _ => blocks.size_toArray,
    fun hops => short hops (by simp [Short, empty])⟩
  · rw [block_eq, shows, overlay_apply]
    rfl
  · rw [block_eq, block_eq, same]

end BlockMap

end VoxelGrammar
