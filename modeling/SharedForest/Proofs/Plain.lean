/-
The functions on subtrees, as functions on trees.

Here is what each function on subtrees does to the trees it is given, once slots, counts
and failures are left out: every one has a twin here under the same name.  A twin reads
the same caches and takes the same branches, so it also tells where they are wrong; it is
nothing but the same function with the store taken away, and `Proofs/Twin` proves
just that.  What can be said about colors, heights, keys and aggregates is then said
about these.

A search is given as an order on keys, which says how what is sought compares with a
key.  Nothing here asks for a lawful one.
-/
import SharedForest.Proofs.Tree
import SharedForest.Subtree.Union
import SharedForest.Subtree.Build

set_option autoImplicit false

namespace SharedForest

/-- A tree of nodes with caches. -/
abbrev NodeTree (K V T : Type) := Tree (Node K V T)

namespace Tree

section

variable {δ : Type}

/-- The left subtree. -/
def left : Tree δ → Tree δ
  | absent => absent
  | node l _ _ => l

/-- The right subtree. -/
def right : Tree δ → Tree δ
  | absent => absent
  | node _ _ r => r

@[simp] theorem left_node (l r : Tree δ) (d : δ) : (node l d r).left = l := rfl

@[simp] theorem right_node (l r : Tree δ) (d : δ) : (node l d r).right = r := rfl

end

variable {γ K V T : Type}

/-- The cached black height, zero for an absent tree. -/
def height (t : NodeTree K V T) : UInt32 := (t.data?.map (·.height)).getD 0

/-- The cached number of entries, zero for an absent tree. -/
def size (t : NodeTree K V T) : UInt32 := (t.data?.map (·.size)).getD 0

/-- The cached aggregate. -/
def aggregate (t : NodeTree K V T) : Option T := t.data?.map (·.aggregate)

/-- Whether there is a root and it is red. -/
def isRed (t : NodeTree K V T) : Bool := t.data?.any (·.color == .red)

/-- The entries, in order. -/
def entries (t : NodeTree K V T) : List (K × V) := t.toList.map Node.entry

variable (aug : Augment K V T)

/-- A node over two trees. -/
def assemble (l : NodeTree K V T) (k : K) (v : V) (c : Color) (r : NodeTree K V T) :
    NodeTree K V T :=
  node l (Node.ofChildren aug l.data? k v c r.data?) r

/-- The tree with a root of color `c`. -/
def paint (c : Color) : NodeTree K V T → NodeTree K V T
  | absent => absent
  | node l d r => if d.color = c then node l d r else assemble aug l d.key d.value c r

/-- The tree with a black root, if it has one. -/
def blacken (t : NodeTree K V T) : NodeTree K V T := paint aug .black t

/-! ## Joining -/

/-- The node `d` with `l` to its left and `r` to its right, rotated where `r` has two red nodes
in a row. -/
def mendRight (l : NodeTree K V T) (d : Node K V T) (r : NodeTree K V T) : NodeTree K V T :=
  match r with
  | absent => assemble aug l d.key d.value d.color absent
  | node rl e rr =>
    if d.color = .black ∧ e.color = .red ∧ rr.isRed then
      assemble aug (assemble aug l d.key d.value .black rl) e.key e.value .red (blacken aug rr)
    else assemble aug l d.key d.value d.color (node rl e rr)

/-- The same with left and right exchanged. -/
def mendLeft (l : NodeTree K V T) (d : Node K V T) (r : NodeTree K V T) : NodeTree K V T :=
  match l with
  | absent => assemble aug absent d.key d.value d.color r
  | node ll e lr =>
    if d.color = .black ∧ e.color = .red ∧ ll.isRed then
      assemble aug (blacken aug ll) e.key e.value .red (assemble aug lr d.key d.value .black r)
    else assemble aug (node ll e lr) d.key d.value d.color r

def joinRight (k : K) (v : V) (tr : NodeTree K V T) : NodeTree K V T → NodeTree K V T
  | absent => assemble aug absent k v .red tr
  | node l d r =>
    if d.color = .black ∧ d.height = tr.height then assemble aug (node l d r) k v .red tr
    else mendRight aug l d (joinRight k v tr r)

def joinLeft (k : K) (v : V) (tl : NodeTree K V T) : NodeTree K V T → NodeTree K V T
  | absent => assemble aug tl k v .red absent
  | node l d r =>
    if d.color = .black ∧ d.height = tl.height then assemble aug tl k v .red (node l d r)
    else mendLeft aug (joinLeft k v tl l) d r

def join (tl : NodeTree K V T) (k : K) (v : V) (tr : NodeTree K V T) : NodeTree K V T :=
  if tr.height < tl.height then
    let t := joinRight aug k v tr tl
    if t.isRed && t.right.isRed then paint aug .black t else t
  else if tl.height < tr.height then
    let t := joinLeft aug k v tl tr
    if t.isRed && t.left.isRed then paint aug .black t else t
  else assemble aug tl k v (if tl.isRed || tr.isRed then .black else .red) tr

/-- The last entry of the tree with the root `d` and the children `l` and `r`, and what is left
without it. -/
def splitLast (l : NodeTree K V T) (d : Node K V T) : NodeTree K V T → NodeTree K V T × K × V
  | absent => (l, d.key, d.value)
  | node rl e rr =>
    let rest := splitLast rl e rr
    (join aug l d.key d.value rest.1, rest.2)

def append (tl tr : NodeTree K V T) : NodeTree K V T :=
  match tl with
  | absent => tr
  | node l d r =>
    let rest := splitLast aug l d r
    join aug rest.1 rest.2.1 rest.2.2 tr

/-! ## Splitting -/

/-- The outcome of a split. -/
structure Halves (K V T : Type) where
  below : NodeTree K V T
  found : Option (K × V)
  above : NodeTree K V T

def split (order : K → Ordering) : NodeTree K V T → Halves K V T
  | absent => ⟨absent, none, absent⟩
  | node l d r =>
    match order d.key with
    | .lt =>
      let p := split order l
      ⟨p.below, p.found, join aug p.above d.key d.value r⟩
    | .gt =>
      let p := split order r
      ⟨join aug l d.key d.value p.below, p.found, p.above⟩
    | .eq => ⟨l, some (d.key, d.value), r⟩

def insert [Ord K] (t : NodeTree K V T) (k : K) (v : V) : NodeTree K V T :=
  let p := split aug (sought k) t
  paint aug .black (join aug p.below k v p.above)

def remove (order : K → Ordering) (t : NodeTree K V T) : NodeTree K V T × Option V :=
  let p := split aug order t
  (blacken aug (append aug p.below p.above), p.found.map (·.2))

/-! ## Uniting -/

def settle (merge : K → V → V → γ → V × γ) (found : Option (K × V)) (d : Node K V T) (g : γ) :
    V × γ :=
  match found with
  | some ours => merge d.key ours.2 d.value g
  | none => (d.value, g)

def union [Ord K] (merge : K → V → V → γ → V × γ) :
    NodeTree K V T → NodeTree K V T → γ → NodeTree K V T × γ
  | t, absent, g => (t, g)
  | absent, node l d r, g => (node l d r, g)
  | node tl e tr, node l d r, g =>
    let p := split aug (sought d.key) (node tl e tr)
    let value := settle merge p.found d g
    let below := union merge p.below l value.2
    let above := union merge p.above r below.2
    (join aug below.1 d.key value.1 above.1, above.2)

/-! ## Building -/

def buildLevel (redDepth : Nat) (items : List (K × V)) (n depth : Nat) :
    NodeTree K V T × List (K × V) :=
  if n = 0 then (absent, items)
  else
    let l := buildLevel redDepth items ((n - 1) / 2) (depth + 1)
    match l.2 with
    | [] => l
    | (k, v) :: rest =>
      let r := buildLevel redDepth rest (n - 1 - (n - 1) / 2) (depth + 1)
      let color := if depth = redDepth ∧ depth ≠ 0 then .red else .black
      (assemble aug l.1 k v color r.1, r.2)
termination_by n
decreasing_by all_goals omega

def build (items : List (K × V)) (n : Nat) : NodeTree K V T :=
  (buildLevel aug n.log2 items n 0).1

/-- The middle one of `n` entries is there, and enough are left for what is to its right. -/
theorem exists_middle {items : List (K × V)} {n : Nat} (h0 : n ≠ 0) (hn : n ≤ items.length) :
    ∃ e rest, items.drop ((n - 1) / 2) = e :: rest ∧ n - 1 - (n - 1) / 2 ≤ rest.length ∧
      rest.drop (n - 1 - (n - 1) / 2) = items.drop n := by
  have hmid : items.drop ((n - 1) / 2) ≠ [] := by
    intro hnil
    have := List.drop_eq_nil_iff.1 hnil
    omega
  obtain ⟨e, rest, hrest⟩ := List.exists_cons_of_ne_nil hmid
  have hdrop : rest = items.drop ((n - 1) / 2 + 1) := by
    rw [← List.drop_drop, hrest]
    rfl
  refine ⟨e, rest, hrest, ?_, ?_⟩
  · rw [hdrop, List.length_drop]
    omega
  · rw [hdrop, List.drop_drop]
    congr 1
    omega

/-- A level leaves the entries it does not use. -/
theorem buildLevel_rest (redDepth : Nat) (items : List (K × V)) (n depth : Nat)
    (hn : n ≤ items.length) : (buildLevel aug redDepth items n depth).2 = items.drop n := by
  induction n using Nat.strongRecOn generalizing items depth with
  | ind n ih =>
    rw [buildLevel]
    by_cases h0 : n = 0
    · rw [if_pos h0, h0]
      rfl
    · rw [if_neg h0]
      obtain ⟨⟨k, v⟩, rest, hrest, hlen, hleft⟩ := exists_middle h0 hn
      dsimp only
      rw [ih ((n - 1) / 2) (by omega) items (depth + 1) (by omega), hrest]
      dsimp only
      rw [ih (n - 1 - (n - 1) / 2) (by omega) rest (depth + 1) hlen, hleft]

end Tree

end SharedForest
