import Mathlib.Algebra.Ring.Nat
import Mathlib.Data.Option.Basic
import VoxelGrammar.BlockMap.Lz4

/-!
Reading what was written gives the same map: the same origins in the same order, and in each
subchunk the same list of writes or the same array. A reader takes exactly the bytes of one piece
off the front and leaves the rest to the next, so the readers compose like the pieces.
-/

namespace VoxelGrammar

/-! ### Words -/

namespace Bytes

/-- The next `j` bits of a number go on top of the first `i`. -/
theorem mod_or_shiftLeft (n : Nat) {i j w : Nat} (h : i + j ≤ w) :
    n % 2 ^ i ||| ((n >>> i) % 2 ^ j) <<< i % 2 ^ w = n % 2 ^ (i + j) := by
  apply Nat.eq_of_testBit_eq
  intro k
  simp only [Nat.testBit_or, Nat.testBit_mod_two_pow, Nat.testBit_shiftLeft, Nat.testBit_shiftRight]
  by_cases low : k < i
  · simp [low, show k < i + j by omega, show ¬ i ≤ k by omega]
  · have split : i + (k - i) = k := by omega
    by_cases high : k < i + j
    · simp [low, high, split, show k < w by omega, show i ≤ k by omega, show k - i < j by omega]
    · simp [low, high, show ¬ k - i < j by omega]

theorem toUInt16_toUInt8 (v : UInt16) : toUInt16 v.toUInt8 (v >>> 8).toUInt8 = v := by
  apply UInt16.toNat_inj.1
  have bits := mod_or_shiftLeft v.toNat (i := 8) (j := 8) (w := 16) (by decide)
  simp only [toUInt16, UInt16.toNat_or, UInt16.toNat_shiftLeft, UInt8.toNat_toUInt16,
    UInt16.toNat_toUInt8, UInt16.toNat_shiftRight]
  exact bits.trans (Nat.mod_eq_of_lt v.toNat_lt)

theorem toUInt32_toUInt8 (v : UInt32) :
    toUInt32 v.toUInt8 (v >>> 8).toUInt8 (v >>> 16).toUInt8 (v >>> 24).toUInt8 = v := by
  apply UInt32.toNat_inj.1
  have two := mod_or_shiftLeft v.toNat (i := 8) (j := 8) (w := 32) (by decide)
  have three := mod_or_shiftLeft v.toNat (i := 16) (j := 8) (w := 32) (by decide)
  have four := mod_or_shiftLeft v.toNat (i := 24) (j := 8) (w := 32) (by decide)
  simp only [toUInt32, UInt32.toNat_or, UInt32.toNat_shiftLeft, UInt8.toNat_toUInt32,
    UInt32.toNat_toUInt8, UInt32.toNat_shiftRight]
  calc _ = (v.toNat % 2 ^ 16 ||| ((v.toNat >>> 16) % 2 ^ 8) <<< 16 % 2 ^ 32) |||
        ((v.toNat >>> 24) % 2 ^ 8) <<< 24 % 2 ^ 32 := by rw [← two]; rfl
    _ = v.toNat % 2 ^ 24 ||| ((v.toNat >>> 24) % 2 ^ 8) <<< 24 % 2 ^ 32 := by rw [three]
    _ = v.toNat := four.trans (Nat.mod_eq_of_lt v.toNat_lt)

end Bytes

namespace BlockMap

variable {α β : Type}

theorem words_flatMap (l : List UInt16) : words (l.flatMap Bytes.ofUInt16) = l := by
  induction l with
  | nil => rfl
  | cons v l ih =>
      show Bytes.toUInt16 _ _ :: words (l.flatMap Bytes.ofUInt16) = v :: l
      rw [ih, Bytes.toUInt16_toUInt8]

theorem pairs_flatMap (l : List (α × α)) : pairs (l.flatMap fun w => [w.1, w.2]) = l := by
  induction l with
  | nil => rfl
  | cons w l ih => exact congrArg (w :: ·) ih

theorem length_words (l : List UInt16) : (l.flatMap Bytes.ofUInt16).length = 2 * l.length := by
  induction l with
  | nil => rfl
  | cons v l ih =>
      show (l.flatMap Bytes.ofUInt16).length + 2 = 2 * (l.length + 1)
      omega

theorem length_pairs (l : List (α × α)) :
    (l.flatMap fun w => [w.1, w.2]).length = 2 * l.length := by
  induction l with
  | nil => rfl
  | cons w l ih =>
      show (l.flatMap fun w => [w.1, w.2]).length + 2 = 2 * (l.length + 1)
      omega

/-! ### The pieces of the bytes -/

theorem ofPos_eq (p : Pos) : Bytes.ofPos p = Bytes.ofUInt32 p.x.toUInt32 ++
    (Bytes.ofUInt32 p.y.toUInt32 ++ (Bytes.ofUInt32 p.z.toUInt32 ++ [])) := by
  simp [Bytes.ofPos]

def listBytes (writes : Array (UInt16 × Block)) : Bytes :=
  (writes.toList.flatMap fun w => [w.1, w.2]).flatMap Bytes.ofUInt16

def arrayBytes (blocks : Vector Block 4096) : Bytes := blocks.toList.flatMap Bytes.ofUInt16

theorem length_listBytes {writes : Array (UInt16 × Block)} (h : writes.size < 2 ^ 32) :
    (listBytes writes).length = 4 * writes.size.toUInt32.toNat := by
  have count : writes.size.toUInt32.toNat = writes.size := Nat.mod_eq_of_lt h
  rw [listBytes, length_words, length_pairs, count, Array.length_toList]
  omega

theorem length_arrayBytes (blocks : Vector Block 4096) : (arrayBytes blocks).length = 8192 := by
  rw [arrayBytes, length_words, Vector.length_toList]

theorem encodeCells_sparse (writes : Array (UInt16 × Block)) : encodeCells (.sparse writes) =
    [sparseKind] ++ (Bytes.ofUInt32 writes.size.toUInt32 ++ (listBytes writes ++ [])) := by
  simp [encodeCells, listBytes, List.flatMap_assoc]

theorem encodeCells_flat (blocks : Vector Block 4096) :
    encodeCells (.flat blocks) = [flatKind] ++ (arrayBytes blocks ++ []) := by
  simp [encodeCells, arrayBytes]

theorem encodeEntry_append (origin : Pos) (cells : Cells) (bytes : Bytes) :
    encodeEntry (origin, cells) ++ bytes =
      Bytes.ofPos origin ++ (encodeCells cells ++ ([] ++ bytes)) := by
  simp [encodeEntry]

theorem encode_eq (m : BlockMap) : m.encode = magic ++ (Bytes.ofUInt32 version ++
    (Bytes.ofUInt32 m.size.toUInt32 ++ m.entries.flatMap encodeEntry)) := by
  simp [encode]

/-! ### Readers -/

/-- The reader takes the bytes off the front and answers `x`. -/
def Reads (r : Reader α) (front : Bytes) (x : α) : Prop :=
  ∀ rest, r.run (front ++ rest) = .ok (x, rest)

namespace Reads

variable {r : Reader α} {front more : Bytes} {x : α} {y : β}

theorem pure (x : α) : Reads (pure x) [] x := fun _ => rfl

theorem bind {k : α → Reader β} (hr : Reads r front x) (hk : Reads (k x) more y) :
    Reads (r >>= k) (front ++ more) y := by
  intro rest
  rw [StateT.run_bind, List.append_assoc, hr]
  exact hk rest

theorem lift {z : Except DecodeError α} (hz : z = .ok x) : Reads (liftM z) [] x := by
  subst hz
  exact fun _ => rfl

theorem take (front : Bytes) : Reads (BlockMap.take front.length) front front := by
  intro rest
  simp [BlockMap.take, StateT.run]

theorem byte (b : UInt8) : Reads readByte [b] b := fun _ => rfl

theorem word (v : UInt32) : Reads readUInt32 (Bytes.ofUInt32 v) v := by
  intro rest
  show Except.ok (Bytes.toUInt32 _ _ _ _, rest) = _
  rw [Bytes.toUInt32_toUInt8]

theorem pos (p : Pos) : Reads readPos (Bytes.ofPos p) p := by
  rw [ofPos_eq]
  exact .bind (word _) (.bind (word _) (.bind (word _) (.pure p)))

end Reads

end BlockMap

/-! ### Subchunks -/

def Cells.Countable (c : Cells) : Prop := ∀ writes, c = .sparse writes → writes.size < 2 ^ 32

namespace BlockMap

theorem reads_cells {c : Cells} (h : c.Countable) : Reads readCells (encodeCells c) c := by
  cases c with
  | sparse writes =>
      have written : (pairs (words (listBytes writes))).toArray = writes := by
        rw [listBytes, words_flatMap, pairs_flatMap]
      rw [encodeCells_sparse]
      refine .bind (.byte _) ?_
      rw [if_pos rfl]
      refine .bind (.word _) (.bind (x := listBytes writes) ?_ ?_)
      · rw [← length_listBytes (h writes rfl)]
        exact .take _
      · rw [written]
        exact .pure _
  | flat blocks =>
      have written : (words (arrayBytes blocks)).toArray = blocks.toArray := by
        rw [arrayBytes, words_flatMap]
        exact Vector.toArray_toList
      rw [encodeCells_flat]
      refine .bind (.byte _) ?_
      rw [if_neg (by decide), if_pos rfl]
      refine .bind (x := arrayBytes blocks) ?_ ?_
      · rw [← length_arrayBytes blocks]
        exact .take _
      · dsimp only
        rw [written, dif_pos blocks.size_toArray]
        exact .pure _

/-! ### Maps -/

theorem alter_after {p : Pos} {f : Cells → Except DecodeError Cells} {d : Cells}
    (hd : f .empty = .ok d) {l : List (Pos × Cells)} (h : ∀ e ∈ l, e.1.Precedes p) :
    alter p f l = .ok (l ++ [(p, d)]) := by
  induction l with
  | nil =>
      rw [alter, hd]
      rfl
  | cons e l ih =>
      obtain ⟨q, c⟩ := e
      obtain ⟨before, rest⟩ := List.forall_mem_cons.1 h
      have apart : p ≠ q := fun heq => Pos.precedes_irrefl q (by simpa [heq] using before)
      have later : ¬ p.Precedes q := fun h => Pos.precedes_irrefl q (Pos.precedes_trans before h)
      rw [alter, if_neg apart, if_neg later, ih rest]
      rfl

theorem update_after {m : BlockMap} {p : Pos} {f : Cells → Except DecodeError Cells} {d : Cells}
    (hd : f .empty = .ok d) (h : ∀ e ∈ m.entries, e.1.Precedes p) :
    ∃ m', m.update p f = .ok m' ∧ m'.entries = m.entries ++ [(p, d)] :=
  update_of_alter (alter_after hd h)

/-- The entries are read in their order, so the next one always goes behind those read before. -/
theorem update_next {m m' : BlockMap} {origin : Pos} {cells : Cells} {l : List (Pos × Cells)}
    (h : m'.entries = m.entries ++ (origin, cells) :: l) :
    ∃ m₁, m.update origin (fun _ => (.ok cells : Except DecodeError Cells)) = .ok m₁ ∧
      m'.entries = m₁.entries ++ l := by
  have ordered := m'.ordered
  rw [h] at ordered
  obtain ⟨m₁, update, entries⟩ := update_after (m := m) (p := origin)
    (f := fun _ => (.ok cells : Except DecodeError Cells)) rfl
    fun e he => (List.pairwise_append.1 ordered).2.2 e he _ List.mem_cons_self
  exact ⟨m₁, update, by rw [entries, h, List.append_assoc, List.singleton_append]⟩

theorem reads_entries {l : List (Pos × Cells)} (countable : ∀ e ∈ l, e.2.Countable)
    {m m' : BlockMap} (h : m'.entries = m.entries ++ l) :
    Reads (readEntries l.length m) (l.flatMap encodeEntry) m' := by
  induction l generalizing m with
  | nil =>
      obtain rfl : m' = m := by
        cases m
        cases m'
        simpa using h
      exact .pure _
  | cons e l ih =>
      obtain ⟨origin, cells⟩ := e
      obtain ⟨first, countable⟩ := List.forall_mem_cons.1 countable
      obtain ⟨m₁, update, rest⟩ := update_next h
      rw [List.flatMap_cons, encodeEntry_append]
      exact .bind (.pos origin) (.bind (reads_cells first) (.bind (.lift update)
        (ih countable rest)))

theorem reads_map {m : BlockMap} (hsize : m.size < 2 ^ 32)
    (countable : ∀ e ∈ m.entries, e.2.Countable) : Reads readMap m.encode m := by
  have count : m.size.toUInt32.toNat = m.entries.length := Nat.mod_eq_of_lt hsize
  rw [encode_eq]
  refine .bind (.take magic) ?_
  rw [if_neg (by simp)]
  refine .bind (.word version) ?_
  rw [if_neg (by simp)]
  refine .bind (.word _) ?_
  rw [count]
  exact reads_entries countable rfl

theorem decode_eq {m : BlockMap} (hsize : m.size < 2 ^ 32)
    (countable : ∀ e ∈ m.entries, e.2.Countable) : decode m.encode = .ok m := by
  have read := reads_map hsize countable []
  rw [List.append_nil] at read
  show (·.1) <$> readMap.run m.encode = _
  rw [read]
  rfl

end BlockMap

/-! ### Compression -/

namespace Lz4

theorem readRest_encodeRest (n : Nat) (rest : Bytes) :
    readRest (encodeRest n ++ rest) = some (n, rest) := by
  have full : ∀ k, readRest (List.replicate k 255 ++ ([(n % 255).toUInt8] ++ rest)) =
      some (255 * k + n % 255, rest) := by
    intro k
    induction k with
    | zero =>
        have last : (n % 255).toUInt8.toNat = n % 255 := Nat.mod_eq_of_lt (by omega)
        have stops : (n % 255).toUInt8 ≠ 255 := by
          intro h
          rw [h] at last
          have : n % 255 < 255 := Nat.mod_lt _ (by decide)
          exact absurd last (by show 255 ≠ _; omega)
        show (if _ then _ else _) = _
        rw [if_neg stops, last, Nat.mul_zero, Nat.zero_add]
        rfl
    | succ k ih =>
        rw [List.replicate_succ, List.cons_append, readRest, if_pos rfl, ih]
        show some (255 * k + n % 255 + 255, rest) = _
        congr 2
        omega
  rw [encodeRest, List.append_assoc, full]
  congr 2
  omega

/-- A single sequence of literals gives them back. -/
theorem decompress?_literals {bytes : Bytes} {limit : Nat} (h : bytes.length ≤ limit)
    {token : UInt8} {rest : Bytes}
    (hlength : readLength (token.toNat / 16) rest = some (bytes.length, bytes)) :
    decompress? limit (token :: rest) = some bytes := by
  have read : readSequences limit (rest.length + 1) (token :: rest) #[] = some bytes.toArray := by
    have room : (guard ((bytes.take bytes.length).length = bytes.length ∧
        (#[] : Array UInt8).size + bytes.length ≤ limit) : Option Unit) = some () :=
      if_pos (by simpa using h)
    rw [readSequences, hlength]
    show (guard ((bytes.take bytes.length).length = bytes.length ∧
        (#[] : Array UInt8).size + bytes.length ≤ limit) >>= fun _ => _ : Option _) = _
    rw [room]
    simp
  rw [decompress?, List.length_cons, read]
  rfl

theorem decompress?_compress {bytes : Bytes} {limit : Nat} (h : bytes.length ≤ limit) :
    decompress? limit (compress bytes) = some bytes := by
  unfold compress
  dsimp only
  split
  · next short =>
    have nibble : (bytes.length * 16).toUInt8.toNat / 16 = bytes.length := by
      show bytes.length * 16 % 256 / 16 = bytes.length
      omega
    refine decompress?_literals h ?_
    rw [nibble, readLength, if_neg (by omega)]
  · next long =>
    rw [List.cons_append]
    refine decompress?_literals h ?_
    rw [readLength, if_pos (by decide), readRest_encodeRest]
    show some (bytes.length - 15 + 15, bytes) = _
    congr 2
    omega

def pack (bytes : Bytes) : Bytes := Bytes.ofUInt32 bytes.length.toUInt32 ++ compress bytes

def unpack : Bytes → Option Bytes
  | a :: b :: c :: d :: rest => decompress? (Bytes.toUInt32 a b c d).toNat rest
  | _ => none

theorem unpack_pack {bytes : Bytes} (h : bytes.length < 2 ^ 32) :
    unpack (pack bytes) = some bytes := by
  show decompress? (Bytes.toUInt32 _ _ _ _).toNat (compress bytes) = _
  rw [Bytes.toUInt32_toUInt8]
  exact decompress?_compress (Nat.le_of_eq (Nat.mod_eq_of_lt h).symm)

end Lz4

namespace BlockMap

def compressWith (pack : Bytes → Bytes) (m : BlockMap) : Bytes := pack m.encode

def decompressWith (unpack : Bytes → Option Bytes) (bytes : Bytes) : Except DecodeError BlockMap :=
  match unpack bytes with
  | some bytes => decode bytes
  | none => .error .decompression

theorem compress_eq (m : BlockMap) : m.compress = compressWith Lz4.pack m := rfl

theorem decompress_eq (bytes : Bytes) : decompress bytes = decompressWith Lz4.unpack bytes := by
  unfold decompressWith
  match bytes with
  | _ :: _ :: _ :: _ :: _ | [] | [_] | [_, _] | [_, _, _] => rfl

/-- A map is the same again after it was written to bytes and read from them, and also if the bytes
are compressed in between by any means that gives them back, as the one used here does. -/
theorem bytes_give_map_back (m : BlockMap) (hsize : m.size < 2 ^ 32)
    (hlists : ∀ e ∈ m.entries, ∀ writes, e.2 = .sparse writes → writes.size < 2 ^ 32) :
    decode m.encode = .ok m ∧
      (∀ (pack : Bytes → Bytes) (unpack : Bytes → Option Bytes),
        unpack (pack m.encode) = some m.encode →
          decompressWith unpack (compressWith pack m) = .ok m) ∧
      (m.encode.length < 2 ^ 32 → decompress m.compress = .ok m) := by
  have decoded := decode_eq hsize hlists
  have unpacked : ∀ (pack : Bytes → Bytes) (unpack : Bytes → Option Bytes),
      unpack (pack m.encode) = some m.encode →
        decompressWith unpack (compressWith pack m) = .ok m := by
    intro pack unpack h
    rw [decompressWith, compressWith, h]
    exact decoded
  refine ⟨decoded, unpacked, fun short => ?_⟩
  rw [compress_eq, decompress_eq]
  exact unpacked _ _ (Lz4.unpack_pack short)

theorem bytes_give_map_back_mixed :
    let m : BlockMap := ⟨[(⟨-16, 0, -32⟩, .sparse #[(5, 7), (4095, 1), (5, 9)]),
      (⟨-16, 16, 0⟩, .flat (.replicate 4096 3))], by decide⟩
    m.size < 2 ^ 32 ∧
      (∀ e ∈ m.entries, ∀ writes, e.2 = .sparse writes → writes.size < 2 ^ 32) ∧
      decode m.encode = .ok m ∧ m.encode.length < 2 ^ 32 ∧ decompress m.compress = .ok m := by
  intro m
  have hsize : m.size < 2 ^ 32 := by decide
  have hlists : ∀ e ∈ m.entries, ∀ writes, e.2 = .sparse writes → writes.size < 2 ^ 32 := by
    simp [m]
  have short : m.encode.length < 2 ^ 32 := by decide +kernel
  obtain ⟨decoded, _, decompressed⟩ := bytes_give_map_back m hsize hlists
  exact ⟨hsize, hlists, decoded, short, decompressed short⟩

end BlockMap

end VoxelGrammar
