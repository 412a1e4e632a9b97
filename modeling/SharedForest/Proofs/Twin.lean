/-
The functions on subtrees do to the store what their twins do to trees.

One law per function, all of the same form.  A function that owns the trees `l` and `r`
starts where `F + {l} + {r}` is held, and ends where it has handed over a tree that
looks as the twin says, `Owned`, or with no place left, `Short`.  In both cases `F` is
held as before, so every tree that somebody else holds is still there.

No descent runs out of steps: `Sound.depth_lt` bounds the depth of every tree that is
kept, and it does not matter how often a slot occurs in it.
-/
import SharedForest.Proofs.Custody
import SharedForest.Proofs.Plain

set_option autoImplicit false

namespace SharedForest

open Store StoreM

variable {γ K Q V T : Type} {s s' : NodeStore K V T} {c : Config}
  {F : Multiset (Placed (Node K V T))} {p l r : Placed (Node K V T)} {i : Nat} {d : Node K V T}
  (aug : Augment K V T)

/-! ## Looking at a tree that is kept -/

namespace Subtree

/-- What is stored for the root of a kept tree: the roots of the subtrees, and the node. -/
theorem read_eq (h : s.Unfolds (.node l (i, d) r)) :
    StoreM.read i s = .ok ⟨l.root, r.root, d⟩ s := by
  rw [StoreM.read, view, Store.read_of_unfolds h]

/-- The cached height is read off the root. -/
theorem height_eq (h : s.Unfolds p) : height p.root s = .ok p.bare.height s := by
  cases p with
  | absent => rfl
  | node l d r => exact bind_of_ok (read_eq h)

/-- So is the node itself. -/
theorem peek_eq (h : s.Unfolds p) : peek p.root s = .ok p.bare.data? s := by
  cases p with
  | absent => rfl
  | node l d r => exact bind_of_ok (read_eq h)

/-- And its color. -/
theorem isRed_eq (h : s.Unfolds p) : isRed p.root s = .ok p.bare.isRed s := by
  cases p with
  | absent => rfl
  | node l d r => exact bind_of_ok (read_eq h)

/-- The color of a child is read through its parent. -/
theorem rightIsRed_eq (h : s.Unfolds (.node l (i, d) r)) :
    rightIsRed i s = .ok r.bare.isRed s :=
  (bind_of_ok (read_eq h)).trans (isRed_eq h.2.2)

theorem leftIsRed_eq (h : s.Unfolds (.node l (i, d) r)) :
    leftIsRed i s = .ok l.bare.isRed s :=
  (bind_of_ok (read_eq h)).trans (isRed_eq h.2.1)

/-- Whether the root and its right child are both red. -/
theorem redPairRight_eq (h : s.Unfolds p) (hi : p.root = some i) :
    redPairRight i s = .ok (p.bare.isRed && p.bare.right.isRed) s := by
  obtain ⟨l, d, r, rfl⟩ := Tree.eq_node_of_root hi
  rw [redPairRight, ← hi, bind_of_ok (isRed_eq h)]
  cases (Tree.node l (i, d) r).bare.isRed
  · rfl
  · exact rightIsRed_eq h

/-- The same on the left. -/
theorem redPairLeft_eq (h : s.Unfolds p) (hi : p.root = some i) :
    redPairLeft i s = .ok (p.bare.isRed && p.bare.left.isRed) s := by
  obtain ⟨l, d, r, rfl⟩ := Tree.eq_node_of_root hi
  rw [redPairLeft, ← hi, bind_of_ok (isRed_eq h)]
  cases (Tree.node l (i, d) r).bare.isRed
  · rfl
  · exact leftIsRed_eq h

/-- Below a black node it is looked for two red ones in a row. -/
theorem pairRight_eq (h : s.Unfolds (.node l (i, d) r)) (col : Color) :
    (if col = .black then redPairRight i else pure false : NodeM K V T Bool) s
      = .ok (decide (col = .black ∧ d.color = .red ∧ r.bare.isRed)) s := by
  by_cases hcol : col = .black
  · rw [if_pos hcol, redPairRight_eq h rfl]
    simp [hcol, Tree.isRed, Tree.data?, Tree.right, beq_eq_decide]
  · rw [if_neg hcol]
    simp [hcol]
    rfl

/-- The mirror image of `pairRight_eq`. -/
theorem pairLeft_eq (h : s.Unfolds (.node l (i, d) r)) (col : Color) :
    (if col = .black then redPairLeft i else pure false : NodeM K V T Bool) s
      = .ok (decide (col = .black ∧ d.color = .red ∧ l.bare.isRed)) s := by
  by_cases hcol : col = .black
  · rw [if_pos hcol, redPairLeft_eq h rfl]
    simp [hcol, Tree.isRed, Tree.data?, Tree.left, beq_eq_decide]
  · rw [if_neg hcol]
    simp [hcol]
    rfl

/-- What `join` looks at first. -/
theorem heights_eq (hl : s.Unfolds l) (hr : s.Unfolds r) :
    (do
      let hl ← height l.root
      let hr ← height r.root
      pure (hl, hr) : NodeM K V T _) s = .ok (l.bare.height, r.bare.height) s := by
  rw [bind_of_ok (height_eq hl), bind_of_ok (height_eq hr)]
  rfl

/-- What a new node's caches are made of. -/
theorem peeks_eq (hl : s.Unfolds l) (hr : s.Unfolds r) :
    (do
      let left ← peek l.root
      let right ← peek r.root
      pure (left, right) : NodeM K V T _) s = .ok (l.bare.data?, r.bare.data?) s := by
  rw [bind_of_ok (peek_eq hl), bind_of_ok (peek_eq hr)]
  rfl

/-- The second root is read only if the first is not red, which makes no difference. -/
theorem eitherRed_eq (hl : s.Unfolds l) (hr : s.Unfolds r) :
    (do if ← isRed l.root then pure true else isRed r.root : NodeM K V T Bool) s
      = .ok (l.bare.isRed || r.bare.isRed) s := by
  rw [bind_of_ok (isRed_eq hl)]
  cases l.bare.isRed
  · exact isRed_eq hr
  · rfl

/-! ## Putting a node together and taking it apart -/

/-- The alarm for sizes is of no account to the books. -/
theorem noteSize_spec (n : Nat) (h : s.Sound c F) :
    ∃ s', noteSize n s = .ok () s' ∧ s'.Sound c F := by
  set s' : NodeStore K V T := { s with alarms :=
    { s.alarms with sizeHigh := s.alarms.sizeHigh || decide (4294967295 < n) } }
  obtain ⟨hcount, hs, hback⟩ := h
  refine ⟨s', rfl, hcount.congr rfl rfl rfl (.refl _), ?_, hback⟩
  exact ⟨hs.created, hs.addressable, hs.unused, hs.free_nodup, hs.free_iff, hs.live_eq, hs.total,
    hs.fresh_le, hs.limit_eq, hs.policy, hs.never_low⟩

/-- A node is made over two trees, which it takes over, or there is no place for it and they are
given up. -/
theorem assemble_cases (k : K) (v : V) (col : Color) (h : s.Sound c (F + {l} + {r})) :
    (∃ i s', assemble aug l.root k v col r.root s = .ok i s' ∧
      Owned c F (Tree.assemble aug l.bare k v col r.bare) (some i) s') ∨
    ∃ e s', assemble aug l.root k v col r.root s = .error e s' ∧ Short c F e s' := by
  have hl : s.Unfolds l := h.unfolds (by simp)
  have hr : s.Unfolds r := h.unfolds (by simp)
  obtain ⟨s₁, hnote, h₁⟩ := noteSize_spec (1 + Node.entries l.bare.data?
    + Node.entries r.bare.data?) h
  -- If there is no place the children go with the cell, so they are not among what is left.
  rw [assemble, bind_of_ok (guarding_of_ok (peeks_eq hl hr))]
  dsimp only
  rw [bind_of_ok hnote]
  obtain ⟨i, s₂, hrun, h₂, -⟩ | ⟨back, s₂, hrun, h₂, -⟩ := allocate_cases
    (Node.ofChildren aug l.bare.data? k v col r.bare.data?) h₁
  · exact .inl ⟨i, s₂, hrun, _, rfl, rfl, h₂⟩
  · exact .inr ⟨_, s₂, hrun, rfl, h₂⟩

/-- The same as a law of how it ends. -/
theorem assemble_spec (k : K) (v : V) (col : Color) (h : s.Sound c (F + {l} + {r})) :
    Ends (assemble aug l.root k v col r.root s)
      (fun i => Owned c F (Tree.assemble aug l.bare k v col r.bare) (some i)) (Short c F) := by
  obtain ⟨i, s₁, hrun, h₁⟩ | ⟨e, s₁, hrun, h₁⟩ := assemble_cases aug k v col h
  · exact .of_ok hrun fun _ => h₁
  · exact .of_error hrun h₁

/-- Taking a node apart needs no place, so it never fails. -/
theorem expose_spec (h : s.Sound c (F + {.node l (i, d) r})) :
    Ends (expose i s) (fun e s' => e = ⟨l.root, d.key, d.value, d.color, r.root⟩ ∧
      s'.Sound c (F + {l} + {r})) Never := by
  have hnode := h.unfolds_last
  rw [expose, bind_of_ok (guarding_of_ok (read_eq hnode))]
  dsimp only
  -- Both children are shared while the node is still held, hence still counted.
  refine .bind (Ends.guarding_never (share_spec h hnode.2.1 (h.refs_ne_of_child hnode (.inl rfl))))
    fun left s₁ h₁ => ?_
  obtain ⟨rfl, h₁⟩ := h₁
  have hnode₁ : s₁.Unfolds (.node l (i, d) r) := h₁.unfolds (by simp)
  refine .bind (Ends.guarding_never (share_spec h₁ hnode₁.2.2
    (h₁.refs_ne_of_child hnode₁ (.inr rfl)))) fun right s₂ h₂ => ?_
  obtain ⟨rfl, h₂⟩ := h₂
  obtain ⟨s₃, hrel, h₃⟩ := release_spec (p := .node l (i, d) r) (F := F + {l} + {r})
    (h₂.cast (by abel)) rfl
  rw [bind_of_ok (guarding_of_ok hrel)]
  exact .pure ⟨rfl, h₃⟩

/-- A root of the right color is handed on, any other is exposed and made anew. -/
theorem paint_spec (col : Color) (h : s.Sound c (F + {p})) (hi : p.root = some i) :
    Ends (paint aug i col s) (fun j => Owned c F (p.bare.paint aug col) (some j))
      (Short c F) := by
  obtain ⟨l, d, r, rfl⟩ := Tree.eq_node_of_root hi
  rw [paint, bind_of_ok (guarding_of_ok (read_eq h.unfolds_last)), Tree.bare_node, Tree.paint]
  dsimp only
  by_cases hcol : d.color = col
  · rw [if_pos hcol, if_pos hcol]
    exact .pure ⟨_, rfl, rfl, h⟩
  · rw [if_neg hcol, if_neg hcol]
    refine .bind (expose_spec h).sure fun e s₁ h₁ => ?_
    obtain ⟨rfl, h₁⟩ := h₁
    exact assemble_spec aug _ _ _ h₁

/-- Painting a tree that may be absent. -/
theorem blacken_spec (h : s.Sound c (F + {p})) :
    Ends (blacken aug p.root s) (Owned c F (p.bare.blacken aug)) (Short c F) := by
  cases p with
  | absent => exact .pure ⟨.absent, rfl, rfl, h⟩
  | node l d r => exact .map (paint_spec aug .black h rfl)

/-! ## Joining -/

/-- The node `d` goes over `l` and the tree at `i`, with a rotation if there are two reds on the
right.  What stood to the right of it, `right`, is not looked at. -/
theorem mendRight_spec (h : s.Sound c (F + {l} + {p})) (hi : p.root = some i)
    (right : Option Nat) :
    Ends (mendRight aug ⟨l.root, d.key, d.value, d.color, right⟩ i s)
      (fun j => Owned c F (l.bare.mendRight aug d p.bare) (some j)) (Short c F) := by
  obtain ⟨rl, e, rr, rfl⟩ := Tree.eq_node_of_root hi
  rw [mendRight, bind_of_ok (guarding_of_ok (pairRight_eq h.unfolds_last d.color)), Tree.bare_node,
    Tree.mendRight]
  dsimp only
  by_cases hcond : d.color = .black ∧ e.color = .red ∧ rr.bare.isRed
  · rw [if_pos hcond, if_pos (by simpa using hcond)]
    refine .bind (.guarding_never (expose_spec h)) fun re s₁ h₁ => ?_
    obtain ⟨rfl, h₁⟩ := h₁
    -- Each step hands over one tree; what the later ones need is guarded in the meantime.
    refine .bind (.guarding_two rl l (blacken_spec aug (h₁.cast (by abel)))) fun root s₂ h₂ => ?_
    obtain ⟨x, rfl, hx, h₂⟩ := h₂
    refine .bind (.guarding_one x (assemble_spec aug _ _ _ (h₂.cast (by abel)))) fun top s₃ h₃ => ?_
    obtain ⟨y, hy, hy', h₃⟩ := h₃
    rw [← hx, ← hy', ← hy]
    exact assemble_spec aug _ _ _ (h₃.cast (by abel))
  · rw [if_neg hcond, if_neg (by simpa using hcond)]
    exact assemble_spec aug _ _ _ h

/-- The mirror image of `mendRight_spec`. -/
theorem mendLeft_spec (h : s.Sound c (F + {r} + {p})) (hi : p.root = some i)
    (left : Option Nat) :
    Ends (mendLeft aug ⟨left, d.key, d.value, d.color, r.root⟩ i s)
      (fun j => Owned c F (p.bare.mendLeft aug d r.bare) (some j)) (Short c F) := by
  obtain ⟨ll, e, lr, rfl⟩ := Tree.eq_node_of_root hi
  rw [mendLeft, bind_of_ok (guarding_of_ok (pairLeft_eq h.unfolds_last d.color)), Tree.bare_node,
    Tree.mendLeft]
  dsimp only
  by_cases hcond : d.color = .black ∧ e.color = .red ∧ ll.bare.isRed
  · rw [if_pos hcond, if_pos (by simpa using hcond)]
    refine .bind (.guarding_never (expose_spec h)) fun le s₁ h₁ => ?_
    obtain ⟨rfl, h₁⟩ := h₁
    refine .bind (.guarding_two lr r (blacken_spec aug (h₁.cast (by abel)))) fun root s₂ h₂ => ?_
    obtain ⟨x, rfl, hx, h₂⟩ := h₂
    refine .bind (.guarding_one x (assemble_spec aug _ _ _ (h₂.cast (by abel)))) fun top s₃ h₃ => ?_
    obtain ⟨y, hy, hy', h₃⟩ := h₃
    rw [← hx, ← hy', ← hy]
    exact assemble_spec aug _ _ _ h₃
  · rw [if_neg hcond, if_neg (by simpa using hcond)]
    exact assemble_spec aug (l := .node ll (i, e) lr) _ _ _ (h.cast (by abel))

/-- By induction on the steps that are left, which are more than the left tree is deep: at each node
either the new one is hung there, or the node is exposed and the join goes on to the right. -/
theorem joinRight_spec (k : K) (v : V) {n : Nat} {tl tr : Placed (Node K V T)}
    (hn : tl.depth < n) (h : s.Sound c (F + {tl} + {tr})) :
    Ends (joinRight aug n tl.root k v tr.root s)
      (fun i => Owned c F (Tree.joinRight aug k v tr.bare tl.bare) (some i)) (Short c F) := by
  induction n generalizing tl s F with
  | zero => exact absurd hn (Nat.not_lt_zero _)
  | succ n ih =>
    rw [joinRight, bind_of_ok (guarding_of_ok (height_eq h.unfolds_last))]
    cases tl with
    | absent => exact assemble_spec aug k v .red h
    | node l d r =>
      obtain ⟨i, d⟩ := d
      have hnode : s.Unfolds (.node l (i, d) r) := h.unfolds (by simp)
      rw [Tree.bare_node, Tree.joinRight, Tree.root_node]
      dsimp only
      rw [bind_of_ok (guarding_of_ok (read_eq hnode))]
      by_cases hhere : d.color = .black ∧ d.height = tr.bare.height
      · rw [if_pos hhere, if_pos hhere]
        exact assemble_spec aug k v .red h
      · rw [if_neg hhere, if_neg hhere]
        have hr : r.depth < n := by
          simp only [Tree.depth] at hn
          omega
        refine .bind (.guarding_never (expose_spec (F := F + {tr}) (h.cast (by abel))))
          fun e s₁ h₁ => ?_
        obtain ⟨rfl, h₁⟩ := h₁
        -- The left child stays outside the recursion, and comes back in with `mendRight`.
        refine .bind (.guarding_one l (ih hr (h₁.cast (by abel)))) fun i' s₂ h₂ => ?_
        obtain ⟨p, hi, hp, h₂⟩ := h₂
        rw [← hp]
        exact mendRight_spec aug h₂ hi _

/-- The mirror image of `joinRight_spec`. -/
theorem joinLeft_spec (k : K) (v : V) {n : Nat} {tl tr : Placed (Node K V T)}
    (hn : tr.depth < n) (h : s.Sound c (F + {tl} + {tr})) :
    Ends (joinLeft aug n tl.root k v tr.root s)
      (fun i => Owned c F (Tree.joinLeft aug k v tl.bare tr.bare) (some i)) (Short c F) := by
  induction n generalizing tr s F with
  | zero => exact absurd hn (Nat.not_lt_zero _)
  | succ n ih =>
    rw [joinLeft, bind_of_ok (guarding_of_ok (height_eq (h.unfolds (by simp))))]
    cases tr with
    | absent => exact assemble_spec aug k v .red h
    | node l d r =>
      obtain ⟨i, d⟩ := d
      rw [Tree.bare_node, Tree.joinLeft, Tree.root_node]
      dsimp only
      rw [bind_of_ok (guarding_of_ok (read_eq h.unfolds_last))]
      by_cases hhere : d.color = .black ∧ d.height = tl.bare.height
      · rw [if_pos hhere, if_pos hhere]
        exact assemble_spec aug k v .red h
      · rw [if_neg hhere, if_neg hhere]
        have hl : l.depth < n := by
          simp only [Tree.depth] at hn
          omega
        refine .bind (.guarding_never (expose_spec h)) fun e s₁ h₁ => ?_
        obtain ⟨rfl, h₁⟩ := h₁
        refine .bind (.guarding_one r (ih hl (h₁.cast (by abel)))) fun i' s₂ h₂ => ?_
        obtain ⟨p, hi, hp, h₂⟩ := h₂
        rw [← hp]
        exact mendLeft_spec aug h₂ hi _

/-- The steps that a descent is given: one more than there are places. -/
theorem depthBound_eq : depthBound s = .ok s.reach s := rfl

/-- The last step of a join paints the root if it is red over a red child. -/
theorem mendRoot_spec {pair : NodeM K V T Bool} {red : Bool} (h : s.Sound c (F + {p}))
    (hi : p.root = some i) (hpair : pair s = .ok red s) :
    Ends ((do
        let redPair ← guarding [i] pair
        if redPair then paint aug i .black else pure i : NodeM K V T Nat) s)
      (fun j => Owned c F (if red then p.bare.paint aug .black else p.bare) (some j))
      (Short c F) := by
  rw [bind_of_ok (guarding_of_ok hpair)]
  cases red
  · exact .pure ⟨p, hi, rfl, h⟩
  · exact paint_spec aug .black h hi

/-- The heights decide which tree is gone down, and each way ends as the twin's. -/
theorem join_spec (k : K) (v : V) {tl tr : Placed (Node K V T)}
    (h : s.Sound c (F + {tl} + {tr})) :
    Ends (join aug tl.root k v tr.root s)
      (fun i => Owned c F (tl.bare.join aug k v tr.bare) (some i)) (Short c F) := by
  have hl : s.Unfolds tl := h.unfolds (by simp)
  have hr : s.Unfolds tr := h.unfolds (by simp)
  rw [join, bind_of_ok (guarding_of_ok (heights_eq hl hr)), Tree.join]
  dsimp only
  by_cases hlt : tr.bare.height < tl.bare.height
  · rw [if_pos hlt, if_pos hlt, bind_of_ok depthBound_eq]
    refine .bind (joinRight_spec aug k v (h.depth_lt hl) h) fun i s₁ h₁ => ?_
    obtain ⟨p, hi, hp, h₁⟩ := h₁
    rw [← hp]
    exact mendRoot_spec aug h₁ hi (redPairRight_eq h₁.unfolds_last hi)
  rw [if_neg hlt, if_neg hlt]
  by_cases hgt : tl.bare.height < tr.bare.height
  · rw [if_pos hgt, if_pos hgt, bind_of_ok depthBound_eq]
    refine .bind (joinLeft_spec aug k v (h.depth_lt hr) h) fun i s₁ h₁ => ?_
    obtain ⟨p, hi, hp, h₁⟩ := h₁
    rw [← hp]
    exact mendRoot_spec aug h₁ hi (redPairLeft_eq h₁.unfolds_last hi)
  rw [if_neg hgt, if_neg hgt]
  rw [bind_of_ok (guarding_of_ok (eitherRed_eq hl hr))]
  exact assemble_spec aug k v _ h

/-! ## Putting two trees side by side -/

/-- What taking out the last entry hands over: what is left, and the entry. -/
def Rest (c : Config) (F : Multiset (Placed (Node K V T))) (t : NodeTree K V T × K × V)
    (res : Option Nat × K × V) (s : NodeStore K V T) : Prop :=
  res.2 = t.2 ∧ Owned c F t.1 res.1 s

/-- By induction on the steps that are left: each node on the right side is exposed, and joined
again with what comes back. -/
theorem splitLastFor_spec {n : Nat} (hn : (Tree.node l (i, d) r).depth < n)
    (h : s.Sound c (F + {.node l (i, d) r})) :
    Ends (splitLastFor aug n i s) (Rest c F (Tree.splitLast aug l.bare d r.bare))
      (Short c F) := by
  induction n generalizing l i d r s F with
  | zero => exact absurd hn (Nat.not_lt_zero _)
  | succ n ih =>
    rw [splitLastFor]
    refine .bind_of_lasting (expose_spec h).sure (fun e s₁ h₁ => ?_) fun e => ?_
    · obtain ⟨rfl, h₁⟩ := h₁
      -- Without a right child the root itself is the last node.
      cases r with
      | absent => exact .pure ⟨rfl, l, rfl, rfl, h₁.of_absent rfl⟩
      | node rl e rr =>
        obtain ⟨j, e⟩ := e
        have hr : (Tree.node rl (j, e) rr).depth < n := by
          simp only [Tree.depth] at hn ⊢
          omega
        refine .bind (.guarding_one l (ih hr h₁)) fun res s₂ h₂ => ?_
        obtain ⟨root, k, v⟩ := res
        obtain ⟨hkv, p, rfl, hp, h₂⟩ := h₂
        refine .bind (join_spec aug d.key d.value h₂) fun top s₃ h₃ => ?_
        refine .pure ⟨hkv, ?_⟩
        rw [Tree.bare_node, Tree.splitLast, ← hp]
        exact h₃
    · cases e.right with
      | none => infer_instance
      | some j =>
        refine .bind lasting_guarding fun res => ?_
        obtain ⟨r, k, v⟩ := res
        infer_instance

/-- The same with the steps that the store gives. -/
theorem splitLast_spec (h : s.Sound c (F + {.node l (i, d) r})) :
    Ends (splitLast aug i s) (Rest c F (Tree.splitLast aug l.bare d r.bare)) (Short c F) := by
  rw [splitLast, bind_of_ok depthBound_eq]
  exact splitLastFor_spec aug (h.depth_lt h.unfolds_last) h

/-- The last entry of the first tree is taken out to join them over. -/
theorem append_spec {tl tr : Placed (Node K V T)} (h : s.Sound c (F + {tl} + {tr})) :
    Ends (append aug tl.root tr.root s) (Owned c F (tl.bare.append aug tr.bare))
      (Short c F) := by
  cases tl with
  | absent => exact .pure ⟨tr, rfl, rfl, (h.cast (by abel) : s.Sound c (F + {tr} + _)).of_absent rfl⟩
  | node l d r =>
    obtain ⟨i, d⟩ := d
    rw [Tree.root_node, append]
    refine .bind (.guarding_one tr (splitLast_spec aug (h.cast (by abel)))) fun res s₁ h₁ => ?_
    obtain ⟨root, k, v⟩ := res
    obtain ⟨hkv, p, rfl, hp, h₁⟩ := h₁
    rw [Tree.bare_node, Tree.append, ← hp, ← hkv]
    exact .map (join_spec aug k v (h₁.cast (by abel)))

/-! ## Splitting -/

/-- What a split hands over. -/
def Halved (c : Config) (F : Multiset (Placed (Node K V T))) (t : Tree.Halves K V T)
    (res : Parts V) (s : NodeStore K V T) : Prop :=
  ∃ p q : Placed (Node K V T), res = ⟨p.root, t.found.map (·.2), q.root⟩ ∧ p.bare = t.below ∧
    q.bare = t.above ∧ s.Sound c (F + {p} + {q})

/-- By induction on the steps that are left: the node is exposed, the part where the key is goes on
being split, and one of its halves is joined with the other part. -/
theorem splitFor_spec [Ord Q] [KeyView K Q] (key : Q) {n : Nat} (hn : p.depth ≤ n)
    (h : s.Sound c (F + {p})) :
    Ends (splitFor aug key n p.root s) (Halved c F (p.bare.split aug (sought key)))
      (Short c F) := by
  induction n generalizing p s F with
  | zero =>
    cases p with
    | absent => exact .pure ⟨.absent, .absent, rfl, rfl, rfl, h.with_absent⟩
    | node l d r => exact absurd hn (Nat.not_succ_le_zero _)
  | succ n ih =>
    cases p with
    | absent => exact .pure ⟨.absent, .absent, rfl, rfl, rfl, h.with_absent⟩
    | node l d r =>
      obtain ⟨i, d⟩ := d
      have hdepth : l.depth ≤ n ∧ r.depth ≤ n := by
        simp only [Tree.depth] at hn
        omega
      rw [Tree.root_node, splitFor, bind_of_ok (guarding_of_ok (read_eq h.unfolds_last)),
        Tree.bare_node, Tree.split]
      dsimp only
      refine .bind_of_lasting (expose_spec h).sure (fun e s₁ h₁ => ?_) fun e => ?_
      · obtain ⟨rfl, h₁⟩ := h₁
        cases sought key d.key with
        | eq => exact .pure ⟨l, r, rfl, rfl, rfl, h₁⟩
        | lt =>
          -- What lies above the key on the left is joined with everything on the right.
          refine .bind (.guarding_one r (ih hdepth.1 (h₁.cast (by abel)))) fun res s₂ h₂ => ?_
          obtain ⟨p, q, rfl, hp, hq, h₂⟩ := h₂
          have hparts : s₂.Sound c (F + {p} + {q} + {r}) := h₂.cast (by abel)
          refine .bind (.guarding_one p (join_spec aug d.key d.value hparts)) fun top s₃ h₃ => ?_
          obtain ⟨x, hx, hx', h₃⟩ := h₃
          exact .pure ⟨p, x, by rw [hx], hp, by rw [hx', hq], h₃⟩
        | gt =>
          refine .bind (.guarding_one l (ih hdepth.2 (h₁.cast (by abel)))) fun res s₂ h₂ => ?_
          obtain ⟨p, q, rfl, hp, hq, h₂⟩ := h₂
          have hparts : s₂.Sound c (F + {q} + {l} + {p}) := h₂.cast (by abel)
          refine .bind (.guarding_one q (join_spec aug d.key d.value hparts)) fun top s₃ h₃ => ?_
          obtain ⟨x, hx, hx', h₃⟩ := h₃
          exact .pure ⟨x, q, by rw [hx], by rw [hx', hp], hq, h₃.cast (by abel)⟩
      · cases sought key d.key <;> infer_instance

/-- The same with the steps that the store gives. -/
theorem split_spec [Ord Q] [KeyView K Q] (key : Q) (h : s.Sound c (F + {p})) :
    Ends (split aug p.root key s) (Halved c F (p.bare.split aug (sought key)))
      (Short c F) := by
  rw [split, bind_of_ok depthBound_eq]
  exact splitFor_spec aug key (Nat.le_of_lt (h.depth_lt h.unfolds_last)) h

/-- A split, a join over the new entry, and a black root. -/
theorem insert_spec [Ord K] (k : K) (v : V) (h : s.Sound c (F + {p})) :
    Ends (insert aug p.root k v s) (fun i => Owned c F (p.bare.insert aug k v) (some i))
      (Short c F) := by
  refine .bind (split_spec aug k h) fun res s₁ h₁ => ?_
  obtain ⟨p₁, q₁, rfl, hp, hq, h₁⟩ := h₁
  refine .bind (join_spec aug k v h₁) fun i s₂ h₂ => ?_
  obtain ⟨p₂, hi, hp₂, h₂⟩ := h₂
  rw [Tree.insert, ← hp, ← hq, ← hp₂]
  exact paint_spec aug .black h₂ hi

/-- A split, the halves put side by side, and a black root. -/
theorem remove_spec [Ord Q] [KeyView K Q] (key : Q) (h : s.Sound c (F + {p})) :
    Ends (remove aug p.root key s)
      (fun res s' => res.2 = (p.bare.remove aug (sought key)).2 ∧
        Owned c F (p.bare.remove aug (sought key)).1 res.1 s') (Short c F) := by
  refine .bind (split_spec aug key h) fun res s₁ h₁ => ?_
  obtain ⟨p₁, q₁, rfl, hp, hq, h₁⟩ := h₁
  refine .bind (append_spec aug h₁) fun root s₂ h₂ => ?_
  obtain ⟨p₂, rfl, hp₂, h₂⟩ := h₂
  rw [Tree.remove, ← hp, ← hq, ← hp₂]
  exact .bind (blacken_spec aug h₂) fun root s₃ h₃ => .pure ⟨rfl, h₃⟩

end Subtree

/-! ## Uniting

The union runs on the store and the state of the merge function together.  The state
is known exactly where there is a result; a failure may leave any. -/

namespace CarryM

variable {σ α : Type} {m : EStateM Failure σ α} {t t' : σ} {g : γ}

theorem lift_of_ok {a : α} (h : m t = .ok a t') : lift m (t, g) = .ok a (t', g) := by
  simp only [lift, h]

theorem lift_of_error {e : Failure} (h : m t = .error e t') :
    lift m (t, g) = .error e (t', g) := by
  simp only [lift, h]

end CarryM

namespace Subtree

/-- What is known of the store, and the carried state is `g`. -/
def Carrying {α : Type} (Q : α → NodeStore K V T → Prop) (g : γ) (a : α)
    (sg : NodeStore K V T × γ) : Prop :=
  ∃ s, sg = (s, g) ∧ Q a s

/-- What is known of the store when an action fails that carries a state along. -/
def ShortCarrying (c : Config) (F : Multiset (Placed (Node K V T))) (e : Failure)
    (sg : NodeStore K V T × γ) : Prop :=
  Short c F e sg.1

end Subtree

namespace Ends

open Subtree

variable {α : Type} {g : γ} {held : List Nat}
  {Q : α → NodeStore K V T → Prop} {m : NodeM K V T α}
  {action : CarryM γ (NodeStore K V T) α} {R : α → NodeStore K V T × γ → Prop}

theorem lift (h : Ends (m s) Q (Short c F)) :
    Ends (CarryM.lift m (s, g)) (Carrying Q g) (ShortCarrying c F) := by
  cases hr : m s with
  | ok a s' =>
    rw [hr] at h
    exact .of_ok (CarryM.lift_of_ok hr) fun hs => ⟨s', rfl, h hs⟩
  | error e s' =>
    rw [hr] at h
    rw [CarryM.lift_of_error hr]
    exact h

/-- What is held while an action runs is given back if it fails, whatever it carries along. -/
theorem guarding_carrying (H : List (Placed (Node K V T)))
    (h : Ends (action (s, g)) R (ShortCarrying c (F + (H : Multiset (Placed (Node K V T)))))) :
    Ends (CarryM.guarding (rootSlots H) action (s, g)) R (ShortCarrying c F) := by
  unfold CarryM.guarding
  cases hr : action (s, g) with
  | ok a sg =>
    rw [hr] at h
    exact h
  | error e sg =>
    rw [hr] at h
    by_cases hs' : Alarmed.Rung sg
    · exact .of_rung (CarryM.lasting_lift.rung sg hs')
    · obtain ⟨s', g'⟩ := sg
      obtain ⟨he, hsound⟩ := h hs'
      obtain ⟨s'', hback, h''⟩ := giveBack_spec (α := α) (e := e) hsound
      exact .of_error (CarryM.lift_of_error hback) ⟨he, h''⟩

theorem guarding_carrying_one (p : Placed (Node K V T))
    (h : Ends (action (s, g)) R (ShortCarrying c (F + {p}))) :
    Ends (CarryM.guarding p.root.toList action (s, g)) R (ShortCarrying c F) := by
  have hroots : p.root.toList = rootSlots [p] := by simp
  rw [hroots]
  exact guarding_carrying [p] h

theorem guarding_carrying_two (p q : Placed (Node K V T))
    (h : Ends (action (s, g)) R (ShortCarrying c (F + {p} + {q}))) :
    Ends (CarryM.guarding (p.root.toList ++ q.root.toList) action (s, g)) R
      (ShortCarrying c F) := by
  have hroots : p.root.toList ++ q.root.toList = rootSlots [p, q] := by simp
  rw [add_assoc] at h
  rw [hroots]
  exact guarding_carrying [p, q] h

/-- Where nothing fails, nothing has to be given back. -/
theorem guarding_carrying_never (h : Ends (m s) Q Never) :
    Ends (CarryM.guarding held (CarryM.lift m) (s, g)) (Carrying Q g) (ShortCarrying c F) := by
  unfold CarryM.guarding
  cases hr : m s with
  | ok a s' =>
    rw [hr] at h
    rw [CarryM.lift_of_ok hr]
    exact fun hs => ⟨s', rfl, h hs⟩
  | error e s' =>
    rw [hr] at h
    rw [CarryM.lift_of_error hr]
    by_cases hs' : Alarmed.Rung s'
    · exact .of_rung (CarryM.lasting_lift.rung (s', g) hs')
    · exact (h hs').elim

end Ends

namespace Subtree

/-- The value for a key that both trees have is settled by the merge function alone. -/
theorem settle_eq (merge : K → V → V → γ → V × γ) (found : Option (K × V))
    {left right : Option Nat} {g : γ} :
    settle merge ⟨left, d.key, d.value, d.color, right⟩ (found.map (·.2)) (s, g)
      = .ok (Tree.settle merge found d g).1 (s, (Tree.settle merge found d g).2) := by
  cases found <;> rfl

/-- By induction on the steps that are left, along the second tree.  At each of its nodes the
first tree is split; each half is united with the subtree on its side, and the other one is held
meanwhile. -/
theorem unionFor_spec [Ord K] (merge : K → V → V → γ → V × γ) {n : Nat} {g : γ}
    {p q : Placed (Node K V T)} (hn : q.depth ≤ n) (h : s.Sound c (F + {p} + {q})) :
    Ends (unionFor aug merge n p.root q.root (s, g))
      (Carrying (Owned c F (p.bare.union aug merge q.bare g).1)
        (p.bare.union aug merge q.bare g).2) (ShortCarrying c F) := by
  induction n generalizing p q s F g with
  | zero =>
    cases q with
    | absent => exact .pure ⟨s, rfl, p, rfl, rfl, h.of_absent rfl⟩
    | node l d r => exact absurd hn (Nat.not_succ_le_zero _)
  | succ n ih =>
    cases q with
    | absent => exact .pure ⟨s, rfl, p, rfl, rfl, h.of_absent rfl⟩
    | node l d r =>
      obtain ⟨j, d⟩ := d
      cases p with
      | absent =>
        have h' : s.Sound c (F + {.node l (j, d) r} + {.absent}) := h.cast (by abel)
        exact .pure ⟨s, rfl, _, rfl, rfl, h'.of_absent rfl⟩
      | node tl e tr =>
        obtain ⟨i, e⟩ := e
        have hdepth : l.depth ≤ n ∧ r.depth ≤ n := by
          simp only [Tree.depth] at hn
          omega
        simp only [Tree.root_node, Tree.bare_node]
        rw [unionFor, Tree.union]
        refine .bind (.guarding_carrying_never (expose_spec h)) fun ex sg₁ h₁ => ?_
        obtain ⟨s₁, rfl, rfl, h₁⟩ := h₁
        -- From here on four parts are on their way, and at each step two of them are guarded.
        have hsplit := split_spec aug d.key (p := .node tl (i, e) tr) (F := F + {l} + {r})
          (h₁.cast (by abel))
        rw [Tree.bare_node] at hsplit
        refine .bind (.guarding_carrying_two l r (.lift hsplit)) fun res sg₂ h₂ => ?_
        obtain ⟨s₂, rfl, x, y, rfl, hx, hy, h₂⟩ := h₂
        rw [bind_of_ok (settle_eq merge _), ← hx, ← hy]
        refine .bind (.guarding_carrying_two y r (ih hdepth.1 (h₂.cast (by abel))))
          fun root sg₃ h₃ => ?_
        obtain ⟨s₃, rfl, below, rfl, hbelow, h₃⟩ := h₃
        refine .bind (.guarding_carrying_one below (ih hdepth.2 (h₃.cast (by abel))))
          fun root sg₄ h₄ => ?_
        obtain ⟨s₄, rfl, above, rfl, habove, h₄⟩ := h₄
        rw [← hbelow, ← habove]
        exact .map (.lift (join_spec aug d.key _ h₄))

/-- The same with the steps that the store gives. -/
theorem union_spec [Ord K] (merge : K → V → V → γ → V × γ) {g : γ}
    {p q : Placed (Node K V T)} (h : s.Sound c (F + {p} + {q})) :
    Ends (union aug merge p.root q.root (s, g))
      (Carrying (Owned c F (p.bare.union aug merge q.bare g).1)
        (p.bare.union aug merge q.bare g).2) (ShortCarrying c F) := by
  rw [union, bind_of_ok (CarryM.lift_of_ok depthBound_eq)]
  exact unionFor_spec aug merge (Nat.le_of_lt (h.depth_lt h.unfolds_last)) h

/-! ## Building -/

/-- By strong induction on the number of entries taken, as the twin goes. -/
theorem buildLevel_spec (redDepth : Nat) (items : List (K × V)) {n : Nat} (depth : Nat)
    (hn : n ≤ items.length) (h : s.Sound c F) :
    Ends (buildLevel aug redDepth items n depth s)
      (fun res s' => res.2 = items.drop n ∧
        Owned c F (Tree.buildLevel aug redDepth items n depth).1 res.1 s') (Short c F) := by
  induction n using Nat.strongRecOn generalizing items depth s F with
  | ind n ih =>
    rw [buildLevel, Tree.buildLevel]
    by_cases h0 : n = 0
    · rw [if_pos h0, if_pos h0]
      exact .pure ⟨by rw [h0]; rfl, .absent, rfl, rfl, h.with_absent⟩
    · rw [if_neg h0, if_neg h0]
      obtain ⟨⟨k, v⟩, rest, hrest, hlen, hleft⟩ := Tree.exists_middle h0 hn
      -- The left half takes its entries off the front, the next one is the root, and the right
      -- half goes on with what remains.
      refine .bind_of_lasting (ih ((n - 1) / 2) (by omega) items (depth + 1) (by omega) h)
        (fun res s₁ h₁ => ?_) fun res => ?_
      · obtain ⟨root, items'⟩ := res
        obtain ⟨rfl, l, rfl, hl, h₁⟩ := h₁
        dsimp only
        rw [Tree.buildLevel_rest aug _ _ _ _ (by omega), hrest]
        dsimp only
        refine .bind (.guarding_one l (ih (n - 1 - (n - 1) / 2) (by omega) rest (depth + 1) hlen h₁))
          fun res s₂ h₂ => ?_
        obtain ⟨root, items'⟩ := res
        obtain ⟨rfl, r, rfl, hr, h₂⟩ := h₂
        refine .bind (assemble_spec aug k v _ h₂) fun i s₃ h₃ => .pure ⟨hleft, ?_⟩
        rw [← hl, ← hr]
        exact h₃
      · obtain ⟨l, items⟩ := res
        cases items with
        | nil => exact lasting_guarding
        | cons e rest =>
          refine .bind lasting_guarding fun res => ?_
          obtain ⟨r, items⟩ := res
          infer_instance

/-- The same for the whole list, from the top level down. -/
theorem build_spec {items : List (K × V)} (h : s.Sound c F) :
    Ends (build aug items items.length s)
      (Owned c F (Tree.build aug items items.length)) (Short c F) := by
  refine .bind (buildLevel_spec aug _ items 0 (Nat.le_refl _) h) fun res s₁ h₁ => ?_
  exact .pure h₁.2

end Subtree

end SharedForest
