/-!
Binary32 data told apart by their bits, two data that are no numbers among them, and the total
order that the floating-point standard puts on all of them.
-/

namespace VoxelGrammar

structure Binary32 where
  bits : UInt32
deriving DecidableEq

namespace Binary32

def ofFloat (v : Float32) : Binary32 := ⟨v.toBits⟩

def value (d : Binary32) : Float32 := .ofBits d.bits

/-- The place of a datum in the total order: the sign decides, then the magnitude. -/
def rank (d : Binary32) : Int :=
  if d.bits < 0x80000000 then d.bits.toNat else 0x7fffffff - (d.bits.toNat : Int)

theorem rank_injective {a b : Binary32} (h : a.rank = b.rank) : a = b := by
  obtain ⟨a⟩ := a
  obtain ⟨b⟩ := b
  simp only [rank, UInt32.lt_iff_toNat_lt] at h
  simp only [Binary32.mk.injEq, ← UInt32.toNat_inj]
  have h₁ : (0x80000000 : UInt32).toNat = 2147483648 := rfl
  simp only [h₁] at h
  split at h <;> split at h <;> omega

end Binary32

end VoxelGrammar
