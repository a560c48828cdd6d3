import Mathlib.Data.Fintype.Card
import Mathlib.Data.FinEnum
import VoxelGrammar.Proofs.Handles

/-!
What mixing keeps. Every step of it can be taken back: only zero is what its own high bits shifted
down leave of it, and an odd factor has an inverse. So a hash tells its arguments apart, values under
one seed as well as seeds under one value, and the hash of a position tells positions apart that
differ along one axis. The contexts below one parent draw their seeds from their origins and from the
seed of that parent, whatever else has been entered and dropped.
-/

namespace VoxelGrammar

open Function

/-! ### Words -/

namespace Seed

/-- A word that is its own high bits, shifted down, has none. -/
theorem eq_zero_of_shiftRight {k d : UInt32} (positive : 0 < k.toNat) (small : k.toNat < 32)
    (h : d >>> k = d) : d = 0 := by
  have halves := congrArg UInt32.toNat h
  rw [UInt32.toNat_shiftRight, Nat.mod_eq_of_lt small, Nat.shiftRight_eq_div_pow] at halves
  have two_le : 2 ≤ 2 ^ k.toNat := Nat.pow_le_pow_right two_pos positive
  rw [← UInt32.toNat_inj, UInt32.toNat_zero]
  by_contra nonzero
  exact absurd halves (Nat.div_lt_self (Nat.pos_of_ne_zero nonzero) two_le).ne

theorem xorShift_xor (k x y : UInt32) : xorShift k (x ^^^ y) = xorShift k x ^^^ xorShift k y := by
  simp only [xorShift, UInt32.shiftRight_xor]
  ac_rfl

theorem xorShift_injective {k : UInt32} (positive : 0 < k.toNat) (small : k.toNat < 32) :
    Injective (xorShift k) := by
  intro x y h
  -- The shift is additive, so it is enough that no difference is lost.
  have lost : xorShift k (x ^^^ y) = 0 := by rw [xorShift_xor, h, UInt32.xor_self]
  have same : (x ^^^ y) >>> k = x ^^^ y := (UInt32.xor_eq_zero_iff.1 lost).symm
  exact UInt32.xor_eq_zero_iff.1 (eq_zero_of_shiftRight positive small same)

/-- A factor with an inverse can be taken back. -/
theorem mul_injective {c : UInt32} (inverse : UInt32) (unit : c * inverse = 1) : Injective (· * c) := by
  intro x y h
  have same : x * c * inverse = y * c * inverse := congrArg (· * inverse) h
  rwa [UInt32.mul_assoc, UInt32.mul_assoc, unit, UInt32.mul_one, UInt32.mul_one] at same

theorem scramble_injective : Injective scramble := by
  have ends : Injective (xorShift 16) := xorShift_injective (by decide) (by decide)
  have middle : Injective (xorShift 13) := xorShift_injective (by decide) (by decide)
  have first : Injective (· * (0x85ebca6b : UInt32)) := mul_injective 0xa5cb9243 (by decide)
  have second : Injective (· * (0xc2b2ae35 : UInt32)) := mul_injective 0x7ed1b41d (by decide)
  exact ends.comp (second.comp (middle.comp (first.comp ends)))

theorem rehash_injective : Injective rehash :=
  scramble_injective.comp fun _ _ h => (UInt32.add_left_inj increment).1 h

theorem hash_injective (seed : Seed) : Injective fun v => hash v seed :=
  scramble_injective.comp fun _ _ h => (UInt32.xor_left_inj _).1 h

theorem hash_seed_injective (v : UInt32) : Injective (hash v) :=
  scramble_injective.comp fun _ _ h => rehash_injective ((UInt32.xor_right_inj v).1 h)

/-! ### Positions -/

theorem toUInt32_injective : Injective Int32.toUInt32 := fun _ _ h => congrArg Int32.ofUInt32 h

/-- The hash of a position depends on each of its components by itself, and on the seed. -/
theorem hashPos_injective (p : Pos) (seed : Seed) :
    (Injective fun x => hashPos { p with x } seed) ∧ (Injective fun y => hashPos { p with y } seed) ∧
      (Injective fun z => hashPos { p with z } seed) ∧ Injective (hashPos p) :=
  ⟨fun _ _ h => toUInt32_injective
      (hash_injective _ (hash_seed_injective _ (hash_seed_injective _ h))),
    fun _ _ h => toUInt32_injective (hash_injective _ (hash_seed_injective _ h)),
    fun _ _ h => toUInt32_injective (hash_injective _ h),
    fun _ _ h => hash_seed_injective _ (hash_seed_injective _ (hash_seed_injective _ h))⟩

end Seed

def Pos.OneApart (p q : Pos) : Prop :=
  (p.x ≠ q.x ∧ p.y = q.y ∧ p.z = q.z) ∨ (p.x = q.x ∧ p.y ≠ q.y ∧ p.z = q.z) ∨
    (p.x = q.x ∧ p.y = q.y ∧ p.z ≠ q.z)

instance (p q : Pos) : Decidable (p.OneApart q) := inferInstanceAs (Decidable (_ ∨ _ ∨ _))

theorem Seed.hashPos_ne {p q : Pos} (apart : p.OneApart q) (seed : Seed) :
    hashPos p seed ≠ hashPos q seed := by
  obtain ⟨x, y, z⟩ := p
  obtain ⟨x', y', z'⟩ := q
  obtain ⟨along_x, along_y, along_z, _⟩ := hashPos_injective ⟨x, y, z⟩ seed
  rcases apart with ⟨hx, rfl, rfl⟩ | ⟨rfl, hy, rfl⟩ | ⟨rfl, rfl, hz⟩
  · exact along_x.ne hx
  · exact along_y.ne hy
  · exact along_z.ne hz

/-! ### Contexts -/

namespace Arena

variable {a b : Arena} {l l' : Ledger} {h : Handle}

/-- The seed of a context below another one is made of its origin and the seed of that one. -/
def Seeded (a : Arena) : Prop :=
  ∀ e ∈ a.live, ∀ p, e.2.parent = some p →
    ∃ x, (p, x) ∈ a.live ∧ e.2.seed = Seed.hashPos e.2.origin x.seed

theorem seed_of_prepare {g : Grammar} {parent : Option Handle} {ref : SymbolRef}
    {placement : Transform} {seed : Seed} {x : Context}
    (prepared : a.prepare g parent ref placement seed = .ok x) {p : Handle} (hp : x.parent = some p) :
    ∃ y, a.get p = .ok y ∧ x.seed = Seed.hashPos x.origin y.seed := by
  obtain ⟨above, s, found, _, entered⟩ := prepare_ok prepared
  obtain ⟨_, alive⟩ := parentContext_ok found
  unfold Context.enter at entered
  dsimp only at entered
  split at entered
  · cases entered
  · cases entered
    obtain ⟨e, rfl, rfl⟩ := Option.map_eq_some_iff.1 hp
    exact ⟨e.2, alive e rfl, rfl⟩

/-- Handing on changes nothing that seeds are made of. -/
theorem forall₂_assign (live : a.isLive h = true) (s : Symbol) :
    List.Forall₂ (fun e d => e.1 = d.1 ∧ e.2.parent = d.2.parent ∧ e.2.origin = d.2.origin ∧
      e.2.seed = d.2.seed) (a.assign h s).live a.live := by
  rw [live_assign live]
  refine forall₂_modify ?_ ?_ _
  · exact List.forall₂_same.2 fun _ _ => ⟨rfl, rfl, rfl, rfl⟩
  · exact fun _ _ same => same

namespace Seeded

theorem push (seeded : a.Seeded) (numbered : a.Numbered) {g : Grammar} {parent : Option Handle}
    {ref : SymbolRef} {placement : Transform} {seed : Seed} {x : Context}
    (prepared : a.prepare g parent ref placement seed = .ok x) : (a.push x).2.Seeded := by
  have kept := subset_push numbered x
  intro e he p hp
  rcases (mem_live_push numbered).1 he with he | rfl
  · obtain ⟨y, hy, same⟩ := seeded e he p hp
    exact ⟨y, kept hy, same⟩
  · obtain ⟨y, hy, same⟩ := seed_of_prepare prepared hp
    exact ⟨y, kept ((mem_live_iff numbered).2 hy), same⟩

theorem assign (seeded : a.Seeded) (live : a.isLive h = true) (s : Symbol) :
    (a.assign h s).Seeded := by
  have partners := forall₂_partners (forall₂_assign live s)
  intro e he p hp
  obtain ⟨d, hd, _, parent, origin, seed⟩ := partners.1 e he
  obtain ⟨x, hx, made⟩ := seeded d hd p (parent.symm.trans hp)
  obtain ⟨f, hf, here, _, _, seed'⟩ := partners.2 _ hx
  refine ⟨f.2, (Prod.ext here rfl : f = (p, f.2)) ▸ hf, ?_⟩
  rw [seed, origin, made, seed']

theorem truncate (seeded : a.Seeded) (numbered : a.Numbered) (rooted : a.Rooted) (n : Nat) :
    (a.truncate n).Seeded := by
  have fewer : (a.truncate n).live ⊆ a.live := fun _ => mem_of_mem_truncate
  intro e he p hp
  obtain ⟨x, hx, same⟩ := seeded e (fewer he) p hp
  -- The parent has stayed, being in a lower slot, and it is the same context as before.
  obtain ⟨_, y, hy⟩ := rooted.truncate numbered n e he p hp
  have unique := ((mem_live_iff numbered).1 hx).symm.trans ((mem_live_iff numbered).1 (fewer hy))
  exact ⟨x, Except.ok.inj unique ▸ hy, same⟩

theorem performs (seeded : a.Seeded) (traced : Traced l a) (performs : Performs l a l' b) :
    b.Seeded := by
  cases performs with
  | enter prepared => exact seeded.push traced.numbered prepared
  | refuse => exact seeded
  | assign live s => exact seeded.assign live s
  | truncate n => exact seeded.truncate traced.numbered traced.rooted n

end Seeded

theorem seeded_of_history {operations : List Operation} (run : history operations = .ok (l, a)) :
    a.Seeded := by
  refine (history_induction (P := fun l a => Traced l a ∧ a.Seeded) ⟨.empty, ?_⟩ ?_ run).2
  · intro e he
    cases he
  · rintro l a l' b ⟨traced, seeded⟩ performs
    exact ⟨traced.performs performs, seeded.performs traced performs⟩

end Arena

/-- Hashing loses nothing. Of a value and a seed, each can be told from the hash if the other is known,
and any word may come out; so it is with the seed that follows another one. The hash of a position tells
each component and the seed. So in the course of any operations on an arena, contexts below the same
parent that differ in one component of their origins have different seeds. -/
theorem Seed.hashing_loses_nothing :
    (∀ seed, Bijective fun v => hash v seed) ∧ (∀ v, Bijective (hash v)) ∧ Bijective rehash ∧
      (∀ y z seed, Injective fun x => hashPos ⟨x, y, z⟩ seed) ∧
      (∀ x z seed, Injective fun y => hashPos ⟨x, y, z⟩ seed) ∧
      (∀ x y seed, Injective fun z => hashPos ⟨x, y, z⟩ seed) ∧ (∀ p, Injective (hashPos p)) ∧
      ∀ (operations : List Arena.Operation) (l : Arena.Ledger) (a : Arena),
        Arena.history operations = .ok (l, a) → ∀ (h k p : Handle) (x y : Context),
          a.get h = .ok x → a.get k = .ok y → x.parent = some p → y.parent = some p →
            x.origin.OneApart y.origin → x.seed ≠ y.seed := by
  refine ⟨fun seed => Finite.injective_iff_bijective.1 (hash_injective seed),
    fun v => Finite.injective_iff_bijective.1 (hash_seed_injective v),
    Finite.injective_iff_bijective.1 rehash_injective, fun y z seed => (hashPos_injective ⟨0, y, z⟩ seed).1,
    fun x z seed => (hashPos_injective ⟨x, 0, z⟩ seed).2.1,
    fun x y seed => (hashPos_injective ⟨x, y, 0⟩ seed).2.2.1,
    fun p => (hashPos_injective p 0).2.2.2, ?_⟩
  intro operations l a run h k p x y hx hy below below' apart
  have numbered := (Arena.traced_of_history run).numbered
  have seeded := Arena.seeded_of_history run
  obtain ⟨c, hc, seed⟩ := seeded (h, x) ((Arena.mem_live_iff numbered).2 hx) p below
  obtain ⟨c', hc', seed'⟩ := seeded (k, y) ((Arena.mem_live_iff numbered).2 hy) p below'
  obtain rfl : c = c' := Except.ok.inj
    (((Arena.mem_live_iff numbered).1 hc).symm.trans ((Arena.mem_live_iff numbered).1 hc'))
  have differ : Seed.hashPos x.origin c.seed ≠ Seed.hashPos y.origin c.seed := hashPos_ne apart c.seed
  rwa [← seed, ← seed'] at differ

/-- Two rules side by side below a third, where another one has been dropped before. -/
theorem Seed.hashing_loses_nothing_rows :
    let enter place := Arena.Operation.create Arena.needy (some ⟨0, 0⟩) (.rule 0) (.shift place) 7
    let operations := [.create Arena.needy none (.rule 0) .identity 7, enter ⟨3, 0, 0⟩, .truncate 1,
      enter ⟨0, 5, 0⟩, enter ⟨0, 6, 0⟩]
    ∃ l a x y, Arena.history operations = .ok (l, a) ∧ a.get ⟨1, 1⟩ = .ok x ∧ a.get ⟨2, 0⟩ = .ok y ∧
      x.parent = some ⟨0, 0⟩ ∧ y.parent = some ⟨0, 0⟩ ∧ x.origin.OneApart y.origin ∧
      x.seed ≠ y.seed := by
  intro enter operations
  have found : (Arena.history operations).map (fun s =>
      ((s.2.get ⟨1, 1⟩).map fun x => (x.parent, x.origin),
        (s.2.get ⟨2, 0⟩).map fun x => (x.parent, x.origin))) =
      .ok (.ok (some ⟨0, 0⟩, ⟨0, 5, 0⟩), .ok (some ⟨0, 0⟩, ⟨0, 6, 0⟩)) := by decide +kernel
  rcases run : Arena.history operations with e | ⟨l, a⟩
  · rw [run] at found
    cases found
  rw [run] at found
  obtain ⟨first, second⟩ := Prod.mk.inj (Except.ok.inj found)
  rcases hx : a.get ⟨1, 1⟩ with e | x
  · rw [hx] at first
    cases first
  rcases hy : a.get ⟨2, 0⟩ with e | y
  · rw [hy] at second
    cases second
  rw [hx] at first
  rw [hy] at second
  obtain ⟨below, origin⟩ := Prod.mk.inj (Except.ok.inj first)
  obtain ⟨below', origin'⟩ := Prod.mk.inj (Except.ok.inj second)
  have apart : x.origin.OneApart y.origin := by
    rw [origin, origin']
    decide
  obtain ⟨_, _, _, _, _, _, _, siblings⟩ := hashing_loses_nothing
  exact ⟨l, a, x, y, rfl, hx, hy, below, below', apart,
    siblings operations l a run ⟨1, 1⟩ ⟨2, 0⟩ ⟨0, 0⟩ x y hx hy below below' apart⟩

end VoxelGrammar
