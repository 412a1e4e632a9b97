/-
Checking a subtree.

`check` recomputes every rule a tree must keep: the nodes are live and counted, the
root is black, no red node has a red child, all ways down have the same number of
black nodes, keys increase strictly, and the three caches are right.  It names the
first rule it finds broken.  The store may hold anything: links may dangle, meet, or
go round in a circle.  In a circle some node would have to sort strictly between
bounds that its own key has set, so it is the order rule that ends the descent; the
step count is never used up in a consistent order, and says the same if it is.
-/
import SharedForest.Subtree.Search

set_option autoImplicit false

namespace SharedForest

namespace Subtree

variable {K V T : Type}

/-- What a checked subtree was found to be. -/
structure Measured where
  height : Nat
  size : Nat

/-- Nothing, measured. -/
def Measured.absent : Measured := ⟨0, 0⟩

/-- Fail with a defect. -/
def defect {α : Type} (d : Defect) : Except Defect α := .error d

/-- What a link leads to, if that is live. -/
def linked (s : NodeStore K V T) (link : Option Nat) : Option (Node K V T) :=
  (link.bind s.cell?).map (·.data)

/-- Check what can be told of the node at `i` before its children are checked: that it is counted,
that its key lies strictly between the bounds, and its color. -/
def checkNode [Ord K] (s : NodeStore K V T) (i : Nat) (cell : Cell (Node K V T))
    (lo hi : Option K) : Except Defect Unit := do
  if s.refs i = 0 then defect (.unreferenced i)
  if lo.any (compare · cell.data.key != .lt) || hi.any (compare · cell.data.key != .gt) then
    defect (.outOfOrder i)
  if cell.data.color == .red && ((linked s cell.left).any (·.color == .red)
      || (linked s cell.right).any (·.color == .red)) then
    defect (.redPair i)

/-- Check the caches of the node at `i`, whose children have been measured.  The caches of the
children are used for the aggregate; a wrong one has been reported where it stands. -/
def checkCaches [BEq T] (s : NodeStore K V T) (aug : Augment K V T) (i : Nat)
    (cell : Cell (Node K V T)) (l r : Measured) : Except Defect Measured := do
  let node := cell.data
  let expected := aug.aggregate ((linked s cell.left).map (·.aggregate)) node.key node.value
    ((linked s cell.right).map (·.aggregate))
  if l.height ≠ r.height then defect (.unevenBlack i l.height r.height)
  if node.height.toNat ≠ l.height + node.color.weight.toNat then defect (.staleHeight i)
  let held := 1 + l.size + r.size
  if node.size.toNat ≠ held then defect (.staleSize i node.size.toNat held)
  if expected != node.aggregate then defect (.staleAggregate i)
  pure ⟨node.height.toNat, held⟩

/-- Check the subtree at `i`, whose keys must lie strictly between the bounds. -/
def checkBelow [Ord K] [BEq T] (s : NodeStore K V T) (aug : Augment K V T) :
    Nat → Nat → Option K → Option K → Except Defect Measured
  | 0, i, _, _ => defect (.outOfOrder i)
  | steps + 1, i, lo, hi => do
    let some cell := s.cell? i | defect (.notLive i)
    checkNode s i cell lo hi
    let l ← match cell.left with
      | some j => checkBelow s aug steps j lo (some cell.data.key)
      | none => pure .absent
    let r ← match cell.right with
      | some j => checkBelow s aug steps j (some cell.data.key) hi
      | none => pure .absent
    checkCaches s aug i cell l r

/-- Check a whole tree. -/
def check [Ord K] [BEq T] (s : NodeStore K V T) (aug : Augment K V T) (root : Option Nat) :
    Except Defect Unit := do
  let some root := root | pure ()
  let some cell := s.cell? root | defect (.rootNotLive root)
  if cell.data.color = .red then defect .rootNotBlack
  let _ ← checkBelow s aug s.reach root none none
  pure ()

end Subtree

end SharedForest
