/-
Pictures of a subtree.

`print` draws one node a line pair, children indented below; `shape` puts the whole
subtree on one line.  Both show what the places hold, whether that makes sense or
not, and say so where a link leads to a place that holds nothing.
-/
import SharedForest.Node
import SharedForest.Text.Quoted

set_option autoImplicit false

namespace SharedForest

namespace Subtree

variable {K V T : Type}

/-- Draw a subtree at most `steps` levels deep, with `tab` in front of every line but the first. -/
def printFor [Written K] [Written V] (s : NodeStore K V T) :
    Nat → Option Nat → String → String
  | _, none, _ => "∅"
  | 0, some i, _ => "Node[" ++ toString i ++ "] <deep>"
  | steps + 1, some i, tab =>
    match s.cell? i with
    | none => "Node[" ++ toString i ++ "] <free>"
    | some c =>
      let left := printFor s steps c.left (tab ++ "  ")
      let right := printFor s steps c.right (tab ++ "  ")
      "Node[" ++ toString i ++ "] " ++ c.data.color.name
        ++ " h=" ++ toString c.data.height.toNat ++ " n=" ++ toString c.data.size.toNat
        ++ " \x7b " ++ Written.debug c.data.key ++ " = " ++ Written.debug c.data.value ++ " \x7d\n"
        ++ tab ++ "L=" ++ left ++ "\n"
        ++ tab ++ "R=" ++ right

/-- Draw a subtree, with `tab` in front of every line but the first. -/
def print [Written K] [Written V] (s : NodeStore K V T) (root : Option Nat) (tab : String) :
    String :=
  printFor s s.reach root tab

/-- The letter of a color. -/
def colorLetter : Color → String
  | .red => "R"
  | .black => "B"

/-- One line for a subtree at most `steps` levels deep. -/
def shapeFor [Written K] (s : NodeStore K V T) : Nat → Option Nat → String
  | _, none => "."
  | 0, some _ => "?"
  | steps + 1, some i =>
    match s.cell? i with
    | none => "?"
    | some c =>
      "(" ++ colorLetter c.data.color ++ toString c.data.height.toNat
        ++ " " ++ Written.plain c.data.key
        ++ " " ++ shapeFor s steps c.left
        ++ " " ++ shapeFor s steps c.right ++ ")"

/-- One line for a subtree: color, black height and key of each node, and its children. -/
def shape [Written K] (s : NodeStore K V T) (root : Option Nat) : String :=
  shapeFor s s.reach root

end Subtree

end SharedForest
