import VoxelGrammar.Binary32
import VoxelGrammar.Seed

/-!
The order in which the expansions of a rule are tried. Expansions of one priority form a tier,
tiers follow one another in the total order of their priorities, and within a tier expansions are
drawn without replacement, each draw weighted by the probability ratios and moving the seed on.
-/

namespace VoxelGrammar

abbrev ExpansionId := Nat

/-- An expansion as the ordering sees it. -/
structure Candidate where
  expansion : ExpansionId
  ratio : Float32
  reflected : Bool

/-- Candidates of one priority, in the order of declaration. -/
structure Tier where
  priority : Binary32
  candidates : List Candidate
  ratioSum : Float32

namespace Tier

/-- Adds a candidate to the tier of its priority, a new one if there is none yet. -/
def place (priority : Binary32) (c : Candidate) : List Tier → List Tier
  | [] => [⟨priority, [c], c.ratio⟩]
  | t :: rest =>
    if t.priority = priority then ⟨t.priority, t.candidates ++ [c], t.ratioSum + c.ratio⟩ :: rest
    else t :: place priority c rest

/-- The tiers of a list of candidates with their priorities. -/
def group (candidates : List (Binary32 × Candidate)) : List Tier :=
  (candidates.foldl (fun tiers c => place c.1 c.2 tiers) []).mergeSort
    (fun s t => s.priority.rank ≤ t.priority.rank)

/-- Draws the first candidate at which the weights add up to `point`, the last one if they never
do, and keeps the others in their order. -/
def pick (point : Float32) : Float32 → Candidate → List Candidate → Candidate × List Candidate
  | _, c, [] => (c, [])
  | sum, c, d :: rest =>
    if point ≤ sum + c.ratio then (c, d :: rest)
    else
      let (chosen, others) := pick point (sum + c.ratio) d rest
      (chosen, c :: others)

/-- Draws `n` candidates, as long as there are any. -/
def drain : (n : Nat) → Seed → Float32 → List Candidate → List Candidate × Seed
  | n + 1, seed, sum, c :: rest =>
    let seed := Seed.rehash seed
    let point := (seed &&& 0xffff).toFloat32 / 65535 * sum
    let (chosen, others) := pick point 0 c rest
    let (drawn, seed) := drain n seed (sum - chosen.ratio) others
    (chosen :: drawn, seed)
  | _, seed, _, _ => ([], seed)

/-- All candidates of the tiers, one tier after the other. -/
def order : Seed → List Tier → List Candidate
  | _, [] => []
  | seed, t :: rest =>
    let (drawn, seed) := drain t.candidates.length seed t.ratioSum t.candidates
    drawn ++ order seed rest

end Tier

end VoxelGrammar
