/-
The aggregate of a tree is a fold over its entries.

A node combines its own entry with the values of its children, so what is cached at a root
is a term of `combine` in the shape of the tree: rotations and joins regroup it.  Where
`combine` is associative all shapes over the same entries have the same value, which is the
fold from the left, `Augment.total`.  Operands never change sides, so nothing is asked of
`combine` but that it is associative.  It need not have a neutral element either; without
entries there is no value.

The law is needed at the root of a handle and at each node a cursor can get to, and both
are parts of a valid tree (`Tree.Admits.exists_orderly`).
-/
import SharedForest.Proofs.Paths
import SharedForest.Proofs.Validity
import SharedForest.Forest.Reading

set_option autoImplicit false

namespace SharedForest

open Tree Std

variable {K Q V T : Type}

/-! ## Folding -/

namespace Augment

/-- The summaries of the entries, combined from the first to the last; none without entries. -/
def total (aug : Augment K V T) (es : List (K × V)) : Option T :=
  match es.map fun e => aug.summarize e.1 e.2 with
  | [] => none
  | a :: rest => some (rest.foldl aug.combine a)

variable {aug : Augment K V T}

@[simp] theorem total_nil : aug.total [] = none := rfl

/-- What comes before an entry and what comes after it can be folded first. -/
theorem total_middle (hassoc : Associative aug.combine) (es : List (K × V)) (e : K × V)
    (fs : List (K × V)) : aug.total (es ++ e :: fs)
      = some (inOrderAggregate aug.summarize aug.combine (aug.total es) e.1 e.2
          (aug.total fs)) := by
  cases es <;> cases fs <;> simp [total, inOrderAggregate, List.foldl_assoc, hassoc.assoc]

/-- What is cached at the root is the fold over the entries. -/
theorem aggregate_eq_total (hrule : aug.aggregate = inOrderAggregate aug.summarize aug.combine)
    (hassoc : Associative aug.combine) {t : NodeTree K V T} (ht : Cached aug t) :
    t.aggregate = aug.total t.entries := by
  induction t with
  | absent => rfl
  | node l d r ihl ihr =>
    obtain ⟨hd, hl, hr⟩ := ht
    have hcache : d.aggregate = aug.aggregate l.aggregate d.key d.value r.aggregate :=
      congrArg Node.aggregate hd
    calc (node l d r).aggregate
        = some (aug.aggregate l.aggregate d.key d.value r.aggregate) := congrArg some hcache
      _ = some (inOrderAggregate aug.summarize aug.combine (aug.total l.entries) d.key d.value
            (aug.total r.entries)) := by rw [hrule, ihl hl, ihr hr]
      _ = aug.total (node l d r).entries := by rw [entries_node, total_middle hassoc]; rfl

end Augment

/-! ## Reading -/

section

variable {s : NodeStore K V T} {cfg : Config} {F : Multiset (Placed (Node K V T))}
  {p q : Placed (Node K V T)} {c : Cursor} {aug : Augment K V T}

theorem Forest.aggregate_spec {f : Forest K V T} {t : Snapshot} (hp : f.store.Unfolds p)
    (ht : t.root = p.root) : f.aggregate t = .ok p.bare.aggregate := by
  rw [aggregate, ofRoot, ht]
  cases p with
  | absent => rfl
  | node l d r => exact bind_of_eq_ok (Store.read_of_unfolds hp)

namespace Cursor

/-- Looking at what is below takes the entries of the subtree. -/
theorem move_below [Ord Q] [KeyView K Q] (root : Option Nat) (version : Nat) :
    c.move s root version (.below : Move Q)
      = (do return (.entries (← Subtree.entries s c.current), c)) := by
  simp only [Subtree.entries, bind_assoc, pure_bind]
  rfl

end Cursor

/-- What validity says of caches and keys; unlike the color of the root it passes to all parts. -/
structure Orderly [Ord K] (aug : Augment K V T) (t : NodeTree K V T) : Prop where
  cached : Cached aug t
  increasing : Increasing t.entries

theorem orderly_absent [Ord K] : Orderly aug (absent : NodeTree K V T) :=
  ⟨cached_absent, increasing_nil⟩

theorem Orderly.children [Ord K] [TransOrd K] {l r : NodeTree K V T} {d : Node K V T}
    (h : Orderly aug (.node l d r)) : Orderly aug l ∧ Orderly aug r := by
  obtain ⟨hl, hr, -, -⟩ := increasing_node.1 h.increasing
  exact ⟨⟨h.cached.2.1, hl⟩, ⟨h.cached.2.2, hr⟩⟩

/-- An orderly tree that is kept tells the number of its entries, which fits into a word. -/
theorem Orderly.size_toNat [Ord K] [TransOrd K] (h : Orderly aug p.bare) (hs : s.Sound cfg F)
    (hp : s.Unfolds p) : p.bare.size.toNat = p.count := by
  have hlt := Store.count_lt_of_unfolds hs hp h.increasing
  rw [size_eq_count h.cached, count_bare, UInt32.toNat_ofNat_of_lt' hlt]

/-- The size that is told at the root is the number of entries. -/
theorem Forest.size_spec [Ord K] [TransOrd K] {f : Forest K V T} {t : Snapshot}
    (h : Orderly aug p.bare) (hs : f.store.Sound cfg F) (hp : f.store.Unfolds p)
    (ht : t.root = p.root) : f.size t = .ok p.count := by
  have hsize := h.size_toNat hs hp
  rw [size, ofRoot, ht]
  cases p with
  | absent => rfl
  | node l d r =>
    rw [← hsize]
    exact bind_of_eq_ok (Store.read_of_unfolds hp)

/-- Both parts of a kept tree that is orderly are kept, and orderly. -/
theorem kept_orderly_children [Ord K] [TransOrd K] (l : Placed (Node K V T)) (d : Nat × Node K V T)
    (r : Placed (Node K V T)) (h : s.Unfolds (.node l d r) ∧ Orderly aug (node l d r).bare) :
    (s.Unfolds l ∧ Orderly aug l.bare) ∧ (s.Unfolds r ∧ Orderly aug r.bare) := by
  obtain ⟨⟨-, hl, hr⟩, hord⟩ := h
  exact ⟨⟨hl, hord.children.1⟩, ⟨hr, hord.children.2⟩⟩

/-- Where a cursor can be there is an orderly tree below it. -/
theorem Tree.Admits.exists_orderly [Ord K] [TransOrd K] (h : p.Admits c) (hp : s.Unfolds p)
    (hord : Orderly aug p.bare) : ∃ q, c.current = q.root ∧ s.Unfolds q ∧ Orderly aug q.bare :=
  h.exists_part (P := fun q => s.Unfolds q ∧ Orderly aug q.bare)
    ⟨Store.unfolds_absent, orderly_absent⟩ kept_orderly_children ⟨hp, hord⟩

end

namespace Session

/-- In every session that a run reaches the aggregate of a handle is the fold over its entries.  A
cursor can be started and moved in it at will, and wherever it gets the aggregate is the fold over
the entries below.  Nothing else goes into the value: not the shape of the tree, and not what was
done to make it. -/
theorem aggregates_fold [Ord K] [TransOrd K] [Ord Q] [KeyView K Q] {aug : Augment K V T}
    {configs : List Config} {sort : List (K × V) → List (K × V)} {s : Session K V T}
    {t : Snapshot} (hrule : aug.aggregate = inOrderAggregate aug.summarize aug.combine)
    (hassoc : Associative aug.combine) (h : s.Reached Q sort aug configs) (ht : t ∈ s.handles) :
    ∃ f es, s.forests[t.forest]? = some f ∧ f.entries t = .ok es ∧
      Forest.isEmpty t = es.isEmpty ∧ f.aggregate t = .ok (aug.total es) ∧
      (∀ origin : TourStart Q, ∃ c, Cursor.start f.store t.root origin = .ok c) ∧
      ∀ c, Cursor.Toured Q f.store t.root c →
        (∀ m : Move Q, ∃ x, c.move f.store t.root t.version.toNat m = .ok x) ∧
        ∃ below, c.move f.store t.root t.version.toNat (.below : Move Q)
            = .ok (.entries below, c) ∧
          c.subtreeAggregate f.store = .ok (aug.total below) := by
  have htidy := h.tidy (closed_valid (Q := Q) aug)
  obtain ⟨f, hf, hmem⟩ := has_of_mem_handles htidy ht
  obtain ⟨c, hc⟩ := htidy.exists_config hf
  obtain ⟨-, -, htended⟩ := htidy.tended t.forest f c hf hc
  obtain ⟨F, hF, hsound, hvalid⟩ := htended.backs
  obtain ⟨p, hp, hroot⟩ := Forest.exists_tree hF hmem
  have hunf := hsound.unfolds hp
  have horderly : Orderly aug p.bare := ⟨(hvalid p hp).balanced.cached, (hvalid p hp).increasing⟩
  -- What is said of the root is said again of the part a cursor is at, with `q` for `p`.
  refine ⟨f, p.bare.entries, hf, ?_, ?_, ?_, ?_, ?_⟩
  · rw [Forest.entries, hroot]
    exact Subtree.entries_spec hsound hunf (horderly.size_toNat hsound hunf)
  · rw [Forest.isEmpty, hroot]
    cases p with
    | absent => rfl
    | node l d r => simp [bare, Tree.map, root]
  · rw [Forest.aggregate_spec hunf hroot,
      Augment.aggregate_eq_total hrule hassoc horderly.cached]
  · intro origin
    obtain ⟨c, hc, -⟩ := Cursor.start_spec hsound hunf origin
    exact ⟨c, by rw [hroot, hc]⟩
  · intro c hc
    rw [hroot] at hc ⊢
    have hadmits := hc.admits hsound hunf
    obtain ⟨q, hcurrent, hq, hord⟩ := hadmits.exists_orderly hunf horderly
    refine ⟨fun m => ?_, q.bare.entries, ?_, ?_⟩
    · obtain ⟨x, hx, -⟩ := Cursor.move_spec hsound hunf hadmits t.version.toNat m
      exact ⟨x, hx⟩
    · rw [Cursor.move_below, hcurrent,
        Subtree.entries_spec hsound hq (hord.size_toNat hsound hq)]
      rfl
    · rw [Cursor.subtreeAggregate_spec hq hcurrent,
        Augment.aggregate_eq_total hrule hassoc hord.cached]

/-- The last node is the right child of the root. -/
theorem aggregates_fold_shortRun : ∃ f es, shortRun.forests[0]? = some f ∧
    f.entries ⟨0, some 3, 2⟩ = .ok es ∧
    f.aggregate ⟨0, some 3, 2⟩ = .ok ((.sum : Augment Nat Int64 Int64).total es) ∧
    ∃ below, Cursor.move f.store (some 3) 2 [2, 3] (.below : Move Nat)
        = .ok (.entries below, [2, 3]) ∧
      Cursor.subtreeAggregate f.store [2, 3]
        = .ok ((.sum : Augment Nat Int64 Int64).total below) := by
  obtain ⟨f, es, hf, hes, -, haggregate, -, hbelow⟩ := aggregates_fold (t := ⟨0, some 3, 2⟩) rfl
    ⟨Int64.add_assoc⟩ reached_shortRun (by decide +kernel)
  have hback : shortRun.forests[0]?.map
      (fun f => (Cursor.start f.store (some 3) (.back : TourStart Nat)).toOption)
        = some (some [2, 3]) := by decide +kernel
  have hstart : Cursor.start f.store (some 3) (.back : TourStart Nat) = .ok [2, 3] := by
    obtain hf : shortRun.forests[0]? = some f := hf
    rw [hf, Option.map_some, Option.some_inj] at hback
    cases hrun : Cursor.start f.store (some 3) (.back : TourStart Nat) with
    | error e => rw [hrun] at hback; cases hback
    | ok c => rw [hrun] at hback; exact congrArg Except.ok (Option.some.inj hback)
  exact ⟨f, es, hf, hes, haggregate, (hbelow _ (.start hstart)).2⟩

end Session

end SharedForest
