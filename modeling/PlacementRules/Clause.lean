/-!
# Clauses and placements

A clause demands that one device stands at one anchor; a placement says that a
device does.  An empty id stands for a missing one, and a clause with a missing
id is never satisfied.
-/

namespace PlacementRules

/-- The demand that `device` is placed at `anchor`. -/
structure Clause where
  device : String := ""
  anchor : String := ""
deriving DecidableEq, Repr, Inhabited

/-- The fact that `device` has been placed at `anchor`. -/
structure Placement where
  device : String := ""
  anchor : String := ""
deriving DecidableEq, Repr, Inhabited

def Clause.isComplete (clause : Clause) : Bool :=
  clause.device != "" && clause.anchor != ""

def Placement.satisfies (placement : Placement) (clause : Clause) : Bool :=
  clause.isComplete &&
    (placement.device == clause.device && placement.anchor == clause.anchor)

/-- The placement as its two ids around an `@`, unquoted. -/
def Placement.text (placement : Placement) : String :=
  placement.device ++ "@" ++ placement.anchor

def Clause.isPlaced (placements : List Placement) (clause : Clause) : Bool :=
  placements.any fun placement => placement.satisfies clause

theorem Clause.isPlaced_iff {placements : List Placement} {clause : Clause} :
    clause.isPlaced placements = true ↔
      clause.isComplete = true ∧ ⟨clause.device, clause.anchor⟩ ∈ placements := by
  simp only [Clause.isPlaced, Placement.satisfies, List.any_eq_true,
    Bool.and_eq_true, beq_iff_eq]
  constructor
  · rintro ⟨⟨device, anchor⟩, hmem, hcomplete, rfl, rfl⟩
    exact ⟨hcomplete, hmem⟩
  · rintro ⟨hcomplete, hmem⟩
    exact ⟨_, hmem, hcomplete, rfl, rfl⟩

/--
Both ids of the clause are present, and some placement has exactly these two: what
a clause means, read off its fields.
-/
def Clause.holds (placements : List Placement) (clause : Clause) : Bool :=
  clause.device != "" && clause.anchor != "" &&
    placements.contains ⟨clause.device, clause.anchor⟩

theorem Clause.isPlaced_eq_holds (placements : List Placement) (clause : Clause) :
    clause.isPlaced placements = clause.holds placements := by
  rw [Bool.eq_iff_iff, Clause.isPlaced_iff]
  simp [Clause.holds, Clause.isComplete]

theorem Clause.isPlaced_of_not_isComplete {placements : List Placement}
    {clause : Clause} (hincomplete : clause.isComplete = false) :
    clause.isPlaced placements = false := by
  simp [Clause.isPlaced, Placement.satisfies, hincomplete]

end PlacementRules
