import VoxelGrammar.Proofs.RoundTrip

/-!
Bytes that break off. A block map says ahead of everything how many subchunks there are, and each of
them of what kind it is and how much it lists, so a reader always knows how much is still to come. Where
the bytes of a map break off, at whatever place, the piece that is cut is the one that is missed.
-/

namespace VoxelGrammar.BlockMap

variable {α β : Type}

/-! ### Readers -/

/-- The reader wants all of the bytes: if they break off, it says so. -/
def Wants (r : Reader α) (front : Bytes) : Prop :=
  ∀ bytes, bytes <+: front → bytes ≠ front → r.run bytes = .error .truncated

namespace Wants

variable {r : Reader α} {front more : Bytes} {x : α} {k : α → Reader β}

theorem nothing (r : Reader α) : Wants r [] := fun _ cut short =>
  absurd (List.prefix_nil.1 cut) short

/-- A cut lies in the bytes of the first reader, or it leaves them whole and lies in those of the
next one. -/
theorem bind (first : Reads r front x) (wants : Wants r front) (later : Wants (k x) more) :
    Wants (r >>= k) (front ++ more) := by
  intro bytes cut short
  rw [StateT.run_bind]
  rcases List.prefix_or_prefix_of_prefix cut (List.prefix_append front more) with inside | whole
  · by_cases all : bytes = front
    · subst all
      have missing : more ≠ [] := fun none => short (by rw [none, List.append_nil])
      have read := first []
      rw [List.append_nil] at read
      rw [read]
      exact later [] List.nil_prefix missing.symm
    · rw [wants bytes inside all]
      rfl
  · obtain ⟨rest, rfl⟩ := whole
    rw [first rest]
    refine later rest ((List.prefix_append_right_inj front).1 cut) ?_
    rintro rfl
    exact short rfl

theorem take (front : Bytes) : Wants (BlockMap.take front.length) front := by
  intro bytes cut short
  have fewer : bytes.length ≠ front.length := fun same => short (cut.eq_of_length same)
  have few := cut.length_le
  have unfilled : (bytes.take front.length).length ≠ front.length := by
    rw [List.length_take]
    omega
  exact if_neg unfilled

theorem byte (b : UInt8) : Wants readByte [b] := by
  intro bytes cut short
  cases bytes with
  | nil => rfl
  | cons c rest =>
      have full := cut.length_le
      rw [List.length_singleton, List.length_cons] at full
      exact absurd (cut.eq_of_length (by rw [List.length_cons, List.length_singleton]; omega)) short

theorem word (v : UInt32) : Wants readUInt32 (Bytes.ofUInt32 v) := by
  intro bytes cut short
  have four : (Bytes.ofUInt32 v).length = 4 := rfl
  have few := cut.length_le
  have fewer : bytes.length ≠ 4 := fun same => short (cut.eq_of_length (same.trans four.symm))
  match bytes with
  | [] | [_] | [_, _] | [_, _, _] => rfl
  | _ :: _ :: _ :: _ :: rest =>
      simp only [List.length_cons, four] at few fewer
      omega

theorem pos (p : Pos) : Wants readPos (Bytes.ofPos p) := by
  rw [ofPos_eq]
  exact .bind (.word _) (.word _) (.bind (.word _) (.word _) (.bind (.word _) (.word _) (.nothing _)))

end Wants

/-! ### Subchunks -/

theorem wants_cells {c : Cells} (h : c.Countable) : Wants readCells (encodeCells c) := by
  cases c with
  | sparse writes =>
      rw [encodeCells_sparse]
      refine .bind (.byte _) (.byte _) ?_
      rw [if_pos rfl]
      refine .bind (.word _) (.word _) ?_
      rw [← length_listBytes (h writes rfl)]
      exact .bind (.take _) (.take _) (.nothing _)
  | flat blocks =>
      rw [encodeCells_flat]
      refine .bind (.byte _) (.byte _) ?_
      rw [if_neg (by decide), if_pos rfl, ← length_arrayBytes blocks]
      exact .bind (.take _) (.take _) (.nothing _)

/-! ### Maps -/

/-- However many subchunks have been read, a cut in one of the others is noticed. -/
theorem wants_entries {l : List (Pos × Cells)} (countable : ∀ e ∈ l, e.2.Countable)
    {m m' : BlockMap} (h : m'.entries = m.entries ++ l) :
    Wants (readEntries l.length m) (l.flatMap encodeEntry) := by
  induction l generalizing m with
  | nil => exact .nothing _
  | cons e l ih =>
      obtain ⟨origin, cells⟩ := e
      obtain ⟨first, countable⟩ := List.forall_mem_cons.1 countable
      obtain ⟨m₁, update, rest⟩ := update_next h
      rw [List.flatMap_cons, encodeEntry_append]
      exact .bind (.pos origin) (.pos origin) (.bind (reads_cells first) (wants_cells first)
        (.bind (.lift update) (.nothing _) (ih countable rest)))

theorem wants_map {m : BlockMap} (hsize : m.size < 2 ^ 32)
    (countable : ∀ e ∈ m.entries, e.2.Countable) : Wants readMap m.encode := by
  have count : m.size.toUInt32.toNat = m.entries.length := Nat.mod_eq_of_lt hsize
  rw [encode_eq]
  refine .bind (.take magic) (.take magic) ?_
  rw [if_neg (by simp)]
  refine .bind (.word version) (.word version) ?_
  rw [if_neg (by simp)]
  refine .bind (.word _) (.word _) ?_
  rw [count]
  have all : m.entries = empty.entries ++ m.entries := rfl
  exact wants_entries countable all

/-- The bytes of a map give it back, but wherever they are broken off, what is left of them is found to
be too short; it is no other map and has no other fault. -/
theorem broken_bytes_are_truncated (m : BlockMap) (hsize : m.size < 2 ^ 32)
    (hlists : ∀ e ∈ m.entries, ∀ writes, e.2 = .sparse writes → writes.size < 2 ^ 32) :
    decode m.encode = .ok m ∧
      ∀ bytes, bytes <+: m.encode → bytes ≠ m.encode → decode bytes = .error .truncated := by
  refine ⟨decode_eq hsize hlists, fun bytes cut short => ?_⟩
  show (·.1) <$> readMap.run bytes = _
  rw [wants_map hsize hlists bytes cut short]
  rfl

theorem broken_bytes_are_truncated_mixed :
    let m : BlockMap := ⟨[(⟨-16, 0, -32⟩, .sparse #[(5, 7), (4095, 1)]),
      (⟨-16, 16, 0⟩, .flat (.replicate 4096 3))], by decide⟩
    m.size < 2 ^ 32 ∧
      (∀ e ∈ m.entries, ∀ writes, e.2 = .sparse writes → writes.size < 2 ^ 32) ∧
      m.encode.take 37 <+: m.encode ∧ m.encode.take 37 ≠ m.encode ∧
      decode (m.encode.take 37) = .error .truncated := by
  intro m
  have hsize : m.size < 2 ^ 32 := by decide
  have hlists : ∀ e ∈ m.entries, ∀ writes, e.2 = .sparse writes → writes.size < 2 ^ 32 := by
    simp [m]
  have cut : m.encode.take 37 <+: m.encode := List.take_prefix _ _
  have short : m.encode.take 37 ≠ m.encode := by
    intro same
    have length := congrArg List.length same
    revert length
    decide +kernel
  exact ⟨hsize, hlists, cut, short, (broken_bytes_are_truncated m hsize hlists).2 _ cut short⟩

end VoxelGrammar.BlockMap
