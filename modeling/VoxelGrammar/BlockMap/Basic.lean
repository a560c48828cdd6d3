import VoxelGrammar.BlockMap.Cells

/-!
The blocks of a structure, by subchunk. Subchunks are listed in the order of their origins, so two
maps that hold the same cells are equal. A map read from bytes may list origins that are not on
the grid of subchunks.
-/

namespace VoxelGrammar

structure BlockMap where
  entries : List (Pos × Cells)
  ordered : entries.Pairwise fun a b => a.1.Precedes b.1

namespace BlockMap

def empty : BlockMap := ⟨[], .nil⟩

instance : Inhabited BlockMap := ⟨empty⟩

instance : DecidableEq BlockMap := fun a b =>
  decidable_of_iff (a.entries = b.entries) ⟨fun h => by cases a; cases b; simp_all, fun h => h ▸ rfl⟩

/-- Changes the cells of an origin, which have none written where the list lacks it. -/
def alter (p : Pos) (f : Cells → Except ε Cells) :
    List (Pos × Cells) → Except ε (List (Pos × Cells))
  | [] => return [(p, ← f .empty)]
  | (q, c) :: rest =>
    if p = q then return (p, ← f c) :: rest
    else if p.Precedes q then return (p, ← f .empty) :: (q, c) :: rest
    else return (q, c) :: (← alter p f rest)

theorem fst_of_mem_alter {p : Pos} {f : Cells → Except ε Cells} {l l' : List (Pos × Cells)}
    (h : alter p f l = .ok l') : ∀ e ∈ l', e.1 = p ∨ ∃ e' ∈ l, e.1 = e'.1 := by
  induction l generalizing l' with
  | nil =>
    simp only [alter, bind, Except.bind, pure, Except.pure] at h
    split at h
    · cases h
    · cases h; simp
  | cons head rest ih =>
    obtain ⟨q, c⟩ := head
    simp only [alter, bind, Except.bind, pure, Except.pure] at h
    split at h
    · split at h
      · cases h
      · cases h
        intro e he
        rcases List.mem_cons.1 he with rfl | he
        · exact .inl rfl
        · exact .inr ⟨e, .tail _ he, rfl⟩
    · split at h
      · split at h
        · cases h
        · cases h
          intro e he
          rcases List.mem_cons.1 he with rfl | he
          · exact .inl rfl
          · exact .inr ⟨e, he, rfl⟩
      · split at h
        · cases h
        · next l'' hl =>
          cases h
          intro e he
          rcases List.mem_cons.1 he with rfl | he
          · exact .inr ⟨(q, c), .head _, rfl⟩
          · rcases ih hl e he with h | ⟨e', he', h⟩
            · exact .inl h
            · exact .inr ⟨e', .tail _ he', h⟩

theorem pairwise_alter {p : Pos} {f : Cells → Except ε Cells} {l l' : List (Pos × Cells)}
    (ordered : l.Pairwise fun a b => a.1.Precedes b.1) (h : alter p f l = .ok l') :
    l'.Pairwise fun a b => a.1.Precedes b.1 := by
  induction l generalizing l' with
  | nil =>
    simp only [alter, bind, Except.bind, pure, Except.pure] at h
    split at h
    · cases h
    · cases h; simp
  | cons head rest ih =>
    obtain ⟨q, c⟩ := head
    obtain ⟨first, ordered⟩ := List.pairwise_cons.1 ordered
    simp only [alter, bind, Except.bind, pure, Except.pure] at h
    split at h
    · next hpq =>
      split at h
      · cases h
      · cases h
        exact List.pairwise_cons.2 ⟨fun e he => hpq ▸ first e he, ordered⟩
    · next hpq =>
      split at h
      · next hlt =>
        split at h
        · cases h
        · cases h
          refine List.pairwise_cons.2 ⟨fun e he => ?_, List.pairwise_cons.2 ⟨first, ordered⟩⟩
          rcases List.mem_cons.1 he with rfl | he
          · exact hlt
          · exact Pos.precedes_trans hlt (first e he)
      · next hlt =>
        split at h
        · cases h
        · next l'' hl =>
          cases h
          refine List.pairwise_cons.2 ⟨fun e he => ?_, ih ordered hl⟩
          rcases fst_of_mem_alter hl e he with he | ⟨e', he', he⟩
          · rw [he]
            rcases Pos.precedes_trichotomy p q with h | h | h
            · exact absurd h hlt
            · exact absurd h hpq
            · exact h
          · rw [he]
            exact first e' he'

/-- Changes the cells of an origin. -/
def update (m : BlockMap) (p : Pos) (f : Cells → Except ε Cells) : Except ε BlockMap :=
  match h : alter p f m.entries with
  | .ok entries => .ok ⟨entries, pairwise_alter m.ordered h⟩
  | .error e => .error e

theorem update_of_alter {m : BlockMap} {p : Pos} {f : Cells → Except ε Cells}
    {l : List (Pos × Cells)} (h : alter p f m.entries = .ok l) :
    ∃ m', m.update p f = .ok m' ∧ m'.entries = l := by
  unfold update
  split
  · next entries h' => exact ⟨_, rfl, Except.ok.inj (h'.symm.trans h)⟩
  · next e h' =>
    rw [h] at h'
    cases h'

/-- Changes the cells of the subchunk that holds `p`; from then on the map lists it. -/
def updateAt (m : BlockMap) (p : Pos) (f : Cells → Except ε Cells) : Except ε BlockMap :=
  m.update p.subchunk f

/-- The cells of an origin, if the map lists it. -/
def cells? (m : BlockMap) (p : Pos) : Option Cells := m.entries.lookup p

/-- Writes one block. -/
def write (m : BlockMap) (p : Pos) (b : Block) : Except Fault BlockMap :=
  m.updateAt p fun c => do (← c.reserve 1).write p.cell b

/-- The block at a position, undefined where nothing was written. -/
def block (m : BlockMap) (p : Pos) : Except Fault Block :=
  match m.cells? p.subchunk with
  | none => .ok Block.undefined
  | some c => c.block p.cell

/-- The number of subchunks. -/
def size (m : BlockMap) : Nat := m.entries.length

def isEmpty (m : BlockMap) : Bool := m.entries.isEmpty

/-- The bytes that all blocks are charged for. -/
def memory (m : BlockMap) : Nat := m.entries.foldl (fun n e => n + e.2.memory) 0

end BlockMap

end VoxelGrammar
