/-
Joining two subtrees.

`join` puts an entry between two subtrees of any black heights.  Where they differ
it walks down the near spine of the taller one to a black node of the height of the
other and hangs a red node there; on the way back two red nodes in a row below a
black one are rotated away.  So the heights in the result are those of the taller
operand or one more, whatever the keys are, and the root may come out red.

A spine is at most as long as there are places, so the walks carry that number of
steps; no walk down a tree uses it up.
-/
import SharedForest.Subtree.Basic

set_option autoImplicit false

namespace SharedForest

namespace Subtree

open StoreM

variable {K V T : Type}

/-- Fail because a descent does not end. -/
def endless {α : Type} : NodeM K V T α := throw (.fault .endless)

/-- As many steps as the longest descent in the store can take. -/
def depthBound : NodeM K V T Nat := return (← get).reach

/-- Whether node `i` and its right child are both red. -/
def redPairRight (i : Nat) : NodeM K V T Bool := do
  if ← isRed (some i) then rightIsRed i else pure false

/-- Whether node `i` and its left child are both red. -/
def redPairLeft (i : Nat) : NodeM K V T Bool := do
  if ← isRed (some i) then leftIsRed i else pure false

/-- Put `r` in the place of the right subtree of an exposed node. -/
def mendRight (aug : Augment K V T) (e : Exposed K V) (r : Nat) : NodeM K V T Nat := do
  -- A red node over a red right child can only be the one hung in below `e`, or one that
  -- a rotation further down has left.
  let redPair ← guarding (r :: e.left.toList) do
    if e.color = .black then redPairRight r else pure false
  if redPair then
    -- Rotate to the left: the middle node of the three becomes the root, and it is red, so
    -- the black height of the whole stays what it was.
    let re ← guarding e.left.toList (expose r)
    let rr ← guarding (re.left.toList ++ e.left.toList) (blacken aug re.right)
    let l ← guarding rr.toList (assemble aug e.left e.key e.value .black re.left)
    assemble aug (some l) re.key re.value .red rr
  else
    assemble aug e.left e.key e.value e.color (some r)

/-- Put `l` in the place of the left subtree of an exposed node. -/
def mendLeft (aug : Augment K V T) (e : Exposed K V) (l : Nat) : NodeM K V T Nat := do
  let redPair ← guarding (l :: e.right.toList) do
    if e.color = .black then redPairLeft l else pure false
  if redPair then
    -- Rotate to the right, the same with left and right exchanged.
    let le ← guarding e.right.toList (expose l)
    let ll ← guarding (le.right.toList ++ e.right.toList) (blacken aug le.left)
    let r ← guarding ll.toList (assemble aug le.right e.key e.value .black e.right)
    assemble aug ll le.key le.value .red (some r)
  else
    assemble aug (some l) e.key e.value e.color e.right

/-- Hang `k` and `tr` on the right spine of `tl`, which must not be lower than `tr`. -/
def joinRight (aug : Augment K V T) :
    Nat → Option Nat → K → V → Option Nat → NodeM K V T Nat
  | 0, _, _, _, _ => endless
  | steps + 1, tl, k, v, tr => do
    let hr ← guarding (tr.toList ++ tl.toList) (height tr)
    match tl with
    | none => assemble aug none k v .red tr
    | some top =>
      let cell ← guarding (top :: tr.toList) (read top)
      if cell.data.color = .black ∧ cell.data.height = hr then
        assemble aug tl k v .red tr
      else
        let e ← guarding tr.toList (expose top)
        let r ← guarding e.left.toList (joinRight aug steps e.right k v tr)
        mendRight aug e r

/-- Hang `k` and `tl` on the left spine of `tr`, which must not be lower than `tl`. -/
def joinLeft (aug : Augment K V T) :
    Nat → Option Nat → K → V → Option Nat → NodeM K V T Nat
  | 0, _, _, _, _ => endless
  | steps + 1, tl, k, v, tr => do
    let hl ← guarding (tr.toList ++ tl.toList) (height tl)
    match tr with
    | none => assemble aug tl k v .red none
    | some top =>
      let cell ← guarding (top :: tl.toList) (read top)
      if cell.data.color = .black ∧ cell.data.height = hl then
        assemble aug tl k v .red tr
      else
        let e ← guarding tl.toList (expose top)
        let l ← guarding e.right.toList (joinLeft aug steps tl k v e.left)
        mendLeft aug e l

/-- Put the entry `(k, v)` between two subtrees.  The result may have a red root. -/
def join (aug : Augment K V T) (tl : Option Nat) (k : K) (v : V) (tr : Option Nat) :
    NodeM K V T Nat := do
  let (hl, hr) ← guarding (tr.toList ++ tl.toList) do
    let hl ← height tl
    let hr ← height tr
    pure (hl, hr)
  if hr < hl then
    -- Nothing above the root can take part in a rotation, so a red pair left there is mended by
    -- painting the root.
    let t ← joinRight aug (← depthBound) tl k v tr
    let redPair ← guarding [t] (redPairRight t)
    if redPair then paint aug t .black else pure t
  else if hl < hr then
    let t ← joinLeft aug (← depthBound) tl k v tr
    let redPair ← guarding [t] (redPairLeft t)
    if redPair then paint aug t .black else pure t
  else
    let redRoot ← guarding (tr.toList ++ tl.toList) do
      if ← isRed tl then pure true else isRed tr
    assemble aug tl k v (if redRoot then .black else .red) tr

/-- Take the last entry out of a subtree; what is left, and that entry. -/
def splitLastFor (aug : Augment K V T) : Nat → Nat → NodeM K V T (Option Nat × K × V)
  | 0, _ => endless
  | steps + 1, t => do
    let e ← expose t
    match e.right with
    | none => pure (e.left, e.key, e.value)
    | some r =>
      let (r, k, v) ← guarding e.left.toList (splitLastFor aug steps r)
      let t ← join aug e.left e.key e.value r
      pure (some t, k, v)

/-- Take the last entry out of a subtree; what is left, and that entry. -/
def splitLast (aug : Augment K V T) (t : Nat) : NodeM K V T (Option Nat × K × V) := do
  splitLastFor aug (← depthBound) t

/-- Put two subtrees side by side, with no entry between them. -/
def append (aug : Augment K V T) (tl tr : Option Nat) : NodeM K V T (Option Nat) := do
  match tl with
  | none => pure tr
  | some tl =>
    let (l, k, v) ← guarding tr.toList (splitLast aug tl)
    some <$> join aug l k v tr

end Subtree

end SharedForest
