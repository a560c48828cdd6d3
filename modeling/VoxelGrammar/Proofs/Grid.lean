import Mathlib.Tactic.Ring
import Mathlib.Tactic.Tauto
import VoxelGrammar.Geometry.Box
import VoxelGrammar.Geometry.Subchunk

/-!
The grid of subchunks covers the whole world, the negative part included: a position is the origin
of one subchunk plus the offset of one of its cells, in exactly one way. The splitting is done on
the bits of two's complement words; here it is described by division with a remainder that is
never negative, which leaves the rest to linear arithmetic.
-/

namespace VoxelGrammar.Pos

/-! ### Words -/

theorem floor_toInt (v : Int32) : (v &&& ~~~15).toInt = v.toInt - v.toInt % 16 := by
  have mask : (v.toBitVec &&& ~~~15#32).toNat = v.toBitVec.toNat / 16 * 16 := by
    apply Nat.eq_of_testBit_eq
    intro i
    have low : (15#32).getLsbD i = decide (i < 4) := Nat.testBit_two_pow_sub_one 4 i
    rw [show 16 = 2 ^ 4 from rfl, Nat.testBit_mul_two_pow, Nat.testBit_div_two_pow,
      BitVec.testBit_toNat, BitVec.testBit_toNat, BitVec.getLsbD_and, BitVec.getLsbD_not, low]
    by_cases hi : 4 ≤ i
    · have word : i < 32 ∨ v.toBitVec.getLsbD i = false := by
        by_cases h : i < 32
        · exact .inl h
        · exact .inr (BitVec.getLsbD_of_ge _ _ (by omega))
      rcases word with h | h <;> simp [hi, h, Nat.sub_add_cancel hi]
    · simp [hi, show i < 4 by omega]
  have value := BitVec.toInt_eq_toNat_cond v.toBitVec
  have floor := BitVec.toInt_eq_toNat_cond (v.toBitVec &&& ~~~15#32)
  have bound := v.toBitVec.isLt
  show (v.toBitVec &&& ~~~15#32).toInt = v.toBitVec.toInt - v.toBitVec.toInt % 16
  omega

theorem low_toNat (v : Int32) : ((v.toUInt32.toUInt16 &&& 15).toNat : Int) = v.toInt % 16 := by
  have mask : (v.toUInt32.toUInt16 &&& 15).toNat = v.toBitVec.toNat % 65536 % 16 :=
    Nat.and_two_pow_sub_one_eq_mod _ 4
  have value := BitVec.toInt_eq_toNat_cond v.toBitVec
  show _ = v.toBitVec.toInt % 16
  omega

/-- A sum that stays in the world is the sum of the numbers. -/
theorem add_toInt {v : Int32} {n : Nat} (h : v.toInt + n < 2 ^ 31) :
    (v + Int32.ofNat n).toInt = v.toInt + n := by
  have low := v.le_toInt
  have size : Int32.size = 4294967296 := rfl
  rw [Int32.toInt_add, Int32.toInt_ofNat', Int.add_bmod_bmod]
  exact Int.bmod_eq_of_le (by omega) (by omega)

/-! ### Positions -/

variable {o p : Pos} {i : Nat}

theorem cell_toNat (p : Pos) : (p.cell.toNat : Int) =
    p.x.toInt % 16 + 16 * (p.y.toInt % 16) + 256 * (p.z.toInt % 16) := by
  have x := low_toNat p.x
  have y := low_toNat p.y
  have z := low_toNat p.z
  unfold cell
  dsimp only
  generalize p.x.toUInt32.toUInt16 &&& 15 = lx at x ⊢
  generalize p.y.toUInt32.toUInt16 &&& 15 = ly at y ⊢
  generalize p.z.toUInt32.toUInt16 &&& 15 = lz at z ⊢
  have hx : lx.toNat < 2 ^ 4 := by omega
  have hy : 2 ^ 4 * ly.toNat + lx.toNat < 2 ^ 8 := by omega
  have shiftY : ((ly <<< 4 : UInt16)).toNat = 2 ^ 4 * ly.toNat := by
    rw [UInt16.toNat_shiftLeft, Nat.shiftLeft_eq]
    simp
    omega
  have shiftZ : ((lz <<< 8 : UInt16)).toNat = 2 ^ 8 * lz.toNat := by
    rw [UInt16.toNat_shiftLeft, Nat.shiftLeft_eq]
    simp
    omega
  -- The three parts have no bit in common, so joining them adds them.
  rw [UInt16.toNat_or, UInt16.toNat_or, shiftY, shiftZ, Nat.or_comm lx.toNat,
    ← Nat.two_pow_add_eq_or_of_lt hx, Nat.or_comm, ← Nat.two_pow_add_eq_or_of_lt hy]
  omega

/-- The cell of a position is one of its subchunk. -/
theorem cell_lt (p : Pos) : p.cell.toNat < subchunkVolume := by
  have index := cell_toNat p
  have volume : subchunkVolume = 4096 := rfl
  omega

theorem toInt_inj {p q : Pos} :
    p = q ↔ p.x.toInt = q.x.toInt ∧ p.y.toInt = q.y.toInt ∧ p.z.toInt = q.z.toInt := by
  simp only [Pos.ext_iff, Int32.toInt_inj]

def Aligned (o : Pos) : Prop := o.subchunk = o

theorem aligned_iff :
    o.Aligned ↔ o.x.toInt % 16 = 0 ∧ o.y.toInt % 16 = 0 ∧ o.z.toInt % 16 = 0 := by
  rw [Aligned, toInt_inj]
  simp only [subchunk, floor_toInt]
  omega

theorem aligned_subchunk (p : Pos) : p.subchunk.Aligned := by
  rw [aligned_iff]
  simp only [subchunk, floor_toInt]
  omega

/-- The cells of a subchunk are all in the world. -/
theorem toInt_add_ofCell (ho : o.Aligned) (i : Nat) :
    (o + ofCell i).x.toInt = o.x.toInt + (i % 16 : Nat) ∧
      (o + ofCell i).y.toInt = o.y.toInt + (i / 16 % 16 : Nat) ∧
      (o + ofCell i).z.toInt = o.z.toInt + (i / 256 % 16 : Nat) := by
  obtain ⟨x, y, z⟩ := aligned_iff.1 ho
  have bounds := And.intro o.x.toInt_lt (And.intro o.y.toInt_lt o.z.toInt_lt)
  exact ⟨add_toInt (by omega), add_toInt (by omega), add_toInt (by omega)⟩

/-- Nothing is lost by splitting. -/
theorem subchunk_add_ofCell_cell (p : Pos) : p.subchunk + ofCell p.cell.toNat = p := by
  have sum := toInt_add_ofCell p.aligned_subchunk p.cell.toNat
  have index := cell_toNat p
  rw [toInt_inj]
  simp only [subchunk, floor_toInt] at sum ⊢
  omega

theorem subchunk_add_ofCell (ho : o.Aligned) (i : Nat) : (o + ofCell i).subchunk = o := by
  have sum := toInt_add_ofCell ho i
  have origin := aligned_iff.1 ho
  rw [toInt_inj]
  simp only [subchunk, floor_toInt]
  omega

theorem cell_add_ofCell (ho : o.Aligned) (hi : i < 4096) : (o + ofCell i).cell.toNat = i := by
  have sum := toInt_add_ofCell ho i
  have origin := aligned_iff.1 ho
  have index := cell_toNat (o + ofCell i)
  omega

/-- Two positions with one subchunk and one cell are the same. -/
theorem eq_iff_subchunk_cell {p q : Pos} : p = q ↔ p.subchunk = q.subchunk ∧ p.cell = q.cell := by
  constructor
  · rintro rfl
    exact ⟨rfl, rfl⟩
  · rintro ⟨origin, cell⟩
    rw [← subchunk_add_ofCell_cell p, ← subchunk_add_ofCell_cell q, origin, cell]

/-! ### The order of positions -/

theorem sup_below_iff {a b : Pos} : (a.sup b).Below p ↔ a.Below p ∧ b.Below p := by
  have sup_le : ∀ u v w : Int32, (if u ≤ v then v else u) ≤ w ↔ u ≤ w ∧ v ≤ w := by
    intro u v w
    simp only [Int32.le_iff_toInt_le]
    split <;> omega
  simp only [Below, sup, sup_le]
  constructor
  · rintro ⟨⟨hx, hx'⟩, ⟨hy, hy'⟩, hz, hz'⟩
    exact ⟨⟨hx, hy, hz⟩, hx', hy', hz'⟩
  · rintro ⟨⟨hx, hy, hz⟩, hx', hy', hz'⟩
    exact ⟨⟨hx, hx'⟩, ⟨hy, hy'⟩, hz, hz'⟩

theorem below_inf_iff {a b : Pos} : p.Below (a.inf b) ↔ p.Below a ∧ p.Below b := by
  have le_inf : ∀ u v w : Int32, (w ≤ if u ≤ v then u else v) ↔ w ≤ u ∧ w ≤ v := by
    intro u v w
    simp only [Int32.le_iff_toInt_le]
    split <;> omega
  simp only [Below, inf, le_inf]
  constructor
  · rintro ⟨⟨hx, hx'⟩, ⟨hy, hy'⟩, hz, hz'⟩
    exact ⟨⟨hx, hy, hz⟩, hx', hy', hz'⟩
  · rintro ⟨⟨hx, hy, hz⟩, hx', hy', hz'⟩
    exact ⟨⟨hx, hx'⟩, ⟨hy, hy'⟩, hz, hz'⟩

end VoxelGrammar.Pos

namespace VoxelGrammar.Box

/-! ### Boxes -/

variable {b : Box} {o p q : Pos} {stride : Nat}

theorem mem_span {low high v : Int32} (hstride : 0 < stride) :
    v ∈ span low high stride ↔
      low.toInt ≤ v.toInt ∧ v.toInt ≤ high.toInt ∧ (stride : Int) ∣ v.toInt - low.toInt := by
  have positive : (0 : Int) < stride := by omega
  have bound := high.toInt_lt
  rw [span, List.mem_map]
  constructor
  · rintro ⟨i, hi, rfl⟩
    rw [List.mem_range] at hi
    have steps : (i : Int) + 1 ≤ (high.toInt - low.toInt + stride) / stride := by omega
    rw [Int.le_ediv_iff_mul_le positive, Int.add_mul, Int.one_mul] at steps
    have sum : (low + Int32.ofNat (i * stride)).toInt = low.toInt + (i * stride : Nat) :=
      Pos.add_toInt (by push_cast; omega)
    rw [sum]
    have forward := Int.mul_nonneg (Int.natCast_nonneg i) positive.le
    push_cast
    exact ⟨by omega, by omega, ⟨i, by ring⟩⟩
  · rintro ⟨hlow, hhigh, k, hk⟩
    have hk0 : 0 ≤ k := by
      by_contra hneg
      have := Int.mul_neg_of_pos_of_neg positive (by omega : k < 0)
      omega
    obtain ⟨i, rfl⟩ := Int.eq_ofNat_of_zero_le hk0
    have offset : ((i * stride : Nat) : Int) = v.toInt - low.toInt := by
      rw [hk]
      push_cast
      ring
    refine ⟨i, ?_, ?_⟩
    · have steps : (i : Int) + 1 ≤ (high.toInt - low.toInt + stride) / stride := by
        rw [Int.le_ediv_iff_mul_le positive, Int.add_mul, Int.one_mul]
        push_cast at offset
        omega
      rw [List.mem_range]
      omega
    · rw [← Int32.toInt_inj, Pos.add_toInt (by omega), offset]
      omega

theorem mem_grid : p ∈ b.grid stride ↔ p.x ∈ span b.low.x b.high.x stride ∧
    p.y ∈ span b.low.y b.high.y stride ∧ p.z ∈ span b.low.z b.high.z stride := by
  simp only [grid, List.mem_flatMap, List.mem_map]
  constructor
  · rintro ⟨z, hz, y, hy, x, hx, rfl⟩
    exact ⟨hx, hy, hz⟩
  · rintro ⟨hx, hy, hz⟩
    exact ⟨p.z, hz, p.y, hy, p.x, hx, rfl⟩

theorem mem_iff : p ∈ b ↔ (b.low.x.toInt ≤ p.x.toInt ∧ b.low.y.toInt ≤ p.y.toInt ∧
    b.low.z.toInt ≤ p.z.toInt) ∧ p.x.toInt ≤ b.high.x.toInt ∧ p.y.toInt ≤ b.high.y.toInt ∧
    p.z.toInt ≤ b.high.z.toInt := by
  simp only [Membership.mem, Mem, Pos.Below, Int32.le_iff_toInt_le]

theorem mem_cells : p ∈ b.cells ↔ p ∈ b := by
  rw [cells, mem_grid, mem_span Nat.one_pos, mem_span Nat.one_pos, mem_span Nat.one_pos, mem_iff]
  simp only [Nat.cast_one, one_dvd]
  tauto

theorem mem_clip {a : Box} : p ∈ a.clip b ↔ p ∈ a ∧ p ∈ b := by
  show (a.low.sup b.low).Below p ∧ p.Below (a.high.inf b.high) ↔
    (a.low.Below p ∧ p.Below a.high) ∧ b.low.Below p ∧ p.Below b.high
  rw [Pos.sup_below_iff, Pos.below_inf_iff, and_and_and_comm]

theorem mem_spanning_self : p ∈ spanning q q ↔ p = q := by
  simp only [mem_iff, spanning, Pos.inf, Pos.sup, ite_self, Pos.toInt_inj]
  omega

/-- The slice of a subchunk has the cells of the box that are in it. -/
theorem mem_slice (ho : o.Aligned) :
    p ∈ b.clip ⟨o, o + .splat 15⟩ ↔ p ∈ b ∧ p.subchunk = o := by
  have origin := Pos.aligned_iff.1 ho
  have bounds := And.intro o.x.toInt_lt (And.intro o.y.toInt_lt o.z.toInt_lt)
  have x : (o.x + 15).toInt = o.x.toInt + 15 := Pos.add_toInt (n := 15) (by omega)
  have y : (o.y + 15).toInt = o.y.toInt + 15 := Pos.add_toInt (n := 15) (by omega)
  have z : (o.z + 15).toInt = o.z.toInt + 15 := Pos.add_toInt (n := 15) (by omega)
  rw [mem_clip, and_congr_right_iff]
  intro _
  rw [mem_iff, Pos.toInt_inj]
  simp only [Pos.subchunk, Pos.floor_toInt, Pos.add_x, Pos.add_y, Pos.add_z, Pos.splat, x, y, z]
  omega

theorem subchunk_of_mem_slice (ho : o.Aligned) (h : p ∈ (b.clip ⟨o, o + .splat 15⟩).cells) :
    p.subchunk = o := ((mem_slice ho).1 (mem_cells.1 h)).2

theorem aligned_of_mem_grid (h : o ∈ (Box.mk b.low.subchunk b.high).grid subchunkSize) :
    o.Aligned := by
  have origin := Pos.aligned_iff.1 b.low.aligned_subchunk
  rw [mem_grid, mem_span (by decide), mem_span (by decide), mem_span (by decide)] at h
  rw [Pos.aligned_iff]
  simp only [subchunkSize] at h
  omega

/-- The slices of a box miss none of its cells. -/
theorem subchunk_mem_grid (h : p ∈ b) :
    p.subchunk ∈ (Box.mk b.low.subchunk b.high).grid subchunkSize := by
  rw [mem_iff] at h
  rw [mem_grid, mem_span (by decide), mem_span (by decide), mem_span (by decide)]
  simp only [Pos.subchunk, Pos.floor_toInt, subchunkSize]
  omega

end VoxelGrammar.Box
