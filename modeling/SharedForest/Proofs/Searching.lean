/-
Searching with a comparison of one's own.

Such a search is not given a key.  It asks of each entry on the way down where the target lies, and
the answer may depend on the value as well, so the order of the keys plays no part here.  All that
is needed is that the answers agree with each other along the list of the entries (`Ascending`).

The search answers with the node it passed last.  That this is the neighbour of the gap, and on
which side of it, is an invariant of the way down: what lies before the subtree that is still to be
searched has answered that it is too small, what lies behind it that it is too great, and the node
passed last stands at the one end or at the other (`Closing`).  When nothing is left to be searched
the two parts meet, and they are the whole list.
-/
import SharedForest.Proofs.Iterators
import SharedForest.Proofs.Safety
import SharedForest.Proofs.Unordered

set_option autoImplicit false

namespace SharedForest

open Tree Std

variable {α β K Q V T : Type}

/-! ## Answers along a list -/

/-- Along the list first some elements are too small, then some fit, then some are too great. -/
def Ascending (order : α → Ordering) (xs : List α) : Prop :=
  ∃ less equal greater, xs = less ++ equal ++ greater ∧ (∀ x ∈ less, order x = .lt) ∧
    (∀ x ∈ equal, order x = .eq) ∧ ∀ x ∈ greater, order x = .gt

/-- The result of a search in a list: an element that fits if there is one, nothing if the list is
empty, and else one of the two neighbours of the gap, with the side on which the gap is. -/
structure SearchResult.Adjacent (order : α → Ordering) (xs : List α) (res : SearchResult α) :
    Prop where
  here_iff : (∃ x, res = .here x) ↔ ∃ x ∈ xs, order x = .eq
  here : ∀ x, res = .here x → x ∈ xs ∧ order x = .eq
  empty_iff : res = .empty ↔ xs = []
  leftOf : ∀ x, res = .leftOf x → xs.find? (order · == .gt) = some x
  rightOf : ∀ x, res = .rightOf x → xs.reverse.find? (order · == .lt) = some x

section

variable {order : α → Ordering} {xs before mid behind l r : List α} {x : α} {res : SearchResult α}

/-- In other words: what is too great is followed by what is too great, and what is too small is
preceded by what is too small. -/
theorem Ascending.pairwise (h : Ascending order xs) : xs.Pairwise fun a b =>
    (order a = .gt → order b = .gt) ∧ (order b = .lt → order a = .lt) := by
  obtain ⟨less, equal, greater, rfl, hless, hequal, hgreater⟩ := h
  -- Within each of the three runs there is nothing to show; between them the order is known.
  have hsame : ∀ (o : Ordering) (ys : List α), (∀ y ∈ ys, order y = o) → ys.Pairwise fun a b =>
      (order a = .gt → order b = .gt) ∧ (order b = .lt → order a = .lt) := by
    refine fun o ys hys => List.pairwise_of_forall_mem_list fun a ha b hb => ?_
    rw [hys a ha, hys b hb]
    exact ⟨id, id⟩
  refine List.pairwise_append.2 ⟨List.pairwise_append.2 ⟨hsame _ _ hless, hsame _ _ hequal, ?_⟩,
    hsame _ _ hgreater, ?_⟩
  · intro a ha b hb
    rw [hless a ha, hequal b hb]
    exact ⟨nofun, fun _ => rfl⟩
  · intro a ha b hb
    rw [hgreater b hb]
    exact ⟨fun _ => rfl, nofun⟩

/-- Behind an element that is too great all are, and before one that is too small. -/
theorem Ascending.around (h : Ascending order (before ++ x :: behind)) :
    (order x = .gt → ∀ y ∈ behind, order y = .gt) ∧
      (order x = .lt → ∀ y ∈ before, order y = .lt) := by
  obtain ⟨-, hrest, hcross⟩ := List.pairwise_append.1 h.pairwise
  exact ⟨fun hx y hy => ((List.pairwise_cons.1 hrest).1 y hy).1 hx,
    fun hx y hy => (hcross y hy x List.mem_cons_self).2 hx⟩

section

variable (hbefore : ∀ x ∈ before, order x = .lt) (hbehind : ∀ x ∈ behind, order x = .gt)
include hbefore hbehind

/-- Nothing fits where all that comes before is too small and all that comes behind is too great. -/
theorem no_hit : ¬ ∃ x ∈ before ++ behind, order x = .eq := by
  rintro ⟨y, hy, heq⟩
  rcases List.mem_append.1 hy with hy | hy
  · rw [hbefore y hy] at heq
    cases heq
  · rw [hbehind y hy] at heq
    cases heq

/-- The first element that is too great comes right behind the gap. -/
theorem find?_gt : (before ++ behind).find? (order · == .gt) = behind.head? := by
  have hskip : before.find? (order · == .gt) = none :=
    List.find?_eq_none.2 fun y hy => by rw [hbefore y hy]; decide
  have hall : behind.filter (order · == .gt) = behind :=
    List.filter_eq_self.2 fun y hy => by rw [hbehind y hy]; decide
  rw [List.find?_append, hskip, Option.none_or, ← List.head?_filter, hall]

/-- The last element that is too small comes right before it. -/
theorem find?_lt : (before ++ behind).reverse.find? (order · == .lt) = before.getLast? := by
  have hskip : behind.reverse.find? (order · == .lt) = none :=
    List.find?_eq_none.2 fun y hy => by rw [hbehind y (List.mem_reverse.1 hy)]; decide
  have hall : before.reverse.filter (order · == .lt) = before.reverse :=
    List.filter_eq_self.2 fun y hy => by rw [hbefore y (List.mem_reverse.1 hy)]; decide
  rw [List.reverse_append, List.find?_append, hskip, Option.none_or, ← List.head?_filter, hall,
    List.head?_reverse]

end

/-- How far a search in `xs` has come that still has `mid` to search, with the result so far. -/
inductive Closing (order : α → Ordering) (xs : List α) : List α → SearchResult α → Prop where
  /-- The gap is in `mid`, and the element passed last is next to it. -/
  | gap (before behind : List α) {mid : List α} {res : SearchResult α} (hxs : xs = before ++ (mid ++ behind))
      (hbefore : ∀ x ∈ before, order x = .lt) (hbehind : ∀ x ∈ behind, order x = .gt)
      (hres : res = .empty ∧ before = [] ∧ behind = [] ∨
        (∃ x, res = .leftOf x ∧ behind.head? = some x) ∨
        ∃ x, res = .rightOf x ∧ before.getLast? = some x) : Closing order xs mid res
  | hit {x : α} (hmem : x ∈ xs) (hx : order x = .eq) : Closing order xs [] (.here x)

namespace Closing

/-- At first all of the list is to be searched, and no node was passed. -/
theorem start (order : α → Ordering) (xs : List α) : Closing order xs xs .empty :=
  .gap [] [] (by simp) (by simp) (by simp) (.inl ⟨rfl, rfl, rfl⟩)

/-- While something is left to be searched, the gap is in it. -/
theorem exists_gap (h : Closing order xs (l ++ x :: r) res) : ∃ before behind,
    xs = before ++ (l ++ x :: r ++ behind) ∧ (∀ y ∈ before, order y = .lt) ∧
      ∀ y ∈ behind, order y = .gt := by
  generalize hmid : l ++ x :: r = mid at h
  cases h with
  | gap before behind hxs hbefore hbehind => exact ⟨before, behind, hxs, hbefore, hbehind⟩
  | hit => simp at hmid

/-- From an element that is too great the search goes on before it. -/
theorem toLeft (hasc : Ascending order xs) (h : Closing order xs (l ++ x :: r) res)
    (hx : order x = .gt) : Closing order xs l (.leftOf x) := by
  obtain ⟨before, behind, rfl, hbefore, -⟩ := h.exists_gap
  have hsplit : before ++ (l ++ x :: r ++ behind) = (before ++ l) ++ x :: (r ++ behind) := by simp
  refine .gap before (x :: (r ++ behind)) (by simp) hbefore ?_
    (.inr (.inl ⟨x, rfl, rfl⟩))
  exact List.forall_mem_cons.2 ⟨hx, (hsplit ▸ hasc).around.1 hx⟩

/-- From an element that is too small it goes on behind it. -/
theorem toRight (hasc : Ascending order xs) (h : Closing order xs (l ++ x :: r) res)
    (hx : order x = .lt) : Closing order xs r (.rightOf x) := by
  obtain ⟨before, behind, rfl, -, hbehind⟩ := h.exists_gap
  have hsplit : before ++ (l ++ x :: r ++ behind) = (before ++ l) ++ x :: (r ++ behind) := by simp
  refine .gap (before ++ l ++ [x]) behind (by simp) ?_ hbehind
    (.inr (.inr ⟨x, rfl, by simp⟩))
  refine List.forall_mem_append.2 ⟨(hsplit ▸ hasc).around.2 hx, ?_⟩
  exact fun y hy => List.mem_singleton.1 hy ▸ hx

/-- A node that fits ends the search. -/
theorem found (h : Closing order xs (l ++ x :: r) res) (hx : order x = .eq) :
    Closing order xs [] (.here x) := by
  obtain ⟨before, behind, rfl, -, -⟩ := h.exists_gap
  exact .hit (by simp) hx

/-- When nothing is left to be searched, the two sides of the gap are the whole list. -/
theorem adjacent (h : Closing order xs [] res) : res.Adjacent order xs := by
  generalize hmid : ([] : List α) = mid at h
  cases h with
  | hit hmem hx =>
    refine ⟨iff_of_true ⟨_, rfl⟩ ⟨_, hmem, hx⟩, ?_, ?_, nofun, nofun⟩
    · rintro y ⟨⟩
      exact ⟨hmem, hx⟩
    · exact iff_of_false nofun (List.ne_nil_of_mem hmem)
  | gap before behind hxs hbefore hbehind hres =>
    obtain rfl : xs = before ++ behind := by rw [hxs, ← hmid, List.nil_append]
    have hnone := no_hit hbefore hbehind
    rcases hres with ⟨rfl, rfl, rfl⟩ | ⟨x, rfl, hx⟩ | ⟨x, rfl, hx⟩
    · exact ⟨iff_of_false nofun hnone, nofun, iff_of_true rfl rfl, nofun, nofun⟩
    · refine ⟨iff_of_false nofun hnone, nofun, iff_of_false nofun ?_, ?_, nofun⟩
      · exact List.ne_nil_of_mem (List.mem_append_right _ (List.mem_of_mem_head? hx))
      · rintro y ⟨⟩
        rw [find?_gt hbefore hbehind, hx]
    · refine ⟨iff_of_false nofun hnone, nofun, iff_of_false nofun ?_, nofun, ?_⟩
      · exact List.ne_nil_of_mem (List.mem_append_left _ (List.mem_of_mem_getLast? hx))
      · rintro y ⟨⟩
        rw [find?_lt hbefore hbehind, hx]

end Closing

namespace SearchResult

variable {f : α → β} {y : β}

theorem map_eq_empty : res.map f = .empty ↔ res = .empty := by cases res <;> simp [map]

/-- A hit is a hit on what was mapped. -/
theorem map_eq_here : res.map f = .here y ↔ ∃ x, res = .here x ∧ f x = y := by
  cases res <;> simp [map]

theorem map_eq_leftOf : res.map f = .leftOf y ↔ ∃ x, res = .leftOf x ∧ f x = y := by
  cases res <;> simp [map]

theorem map_eq_rightOf : res.map f = .rightOf y ↔ ∃ x, res = .rightOf x ∧ f x = y := by
  cases res <;> simp [map]

end SearchResult

namespace SearchResult.Adjacent

/-- What is reported is an element of the list. -/
theorem mem (h : res.Adjacent order xs) (hx : res.entry? = some x) : x ∈ xs := by
  cases res with
  | empty => cases hx
  | leftOf y =>
    cases hx
    exact List.mem_of_find?_eq_some (h.leftOf _ rfl)
  | here y =>
    cases hx
    exact (h.here _ rfl).1
  | rightOf y =>
    cases hx
    exact List.mem_reverse.1 (List.mem_of_find?_eq_some (h.rightOf _ rfl))

/-- The same is said of what the elements stand for. -/
theorem map {f : α → β} {order : β → Ordering} (h : res.Adjacent (fun x => order (f x)) xs) :
    (res.map f).Adjacent order (xs.map f) where
  here_iff := by
    have hhere : (∃ y, res.map f = .here y) ↔ ∃ x, res = .here x := by simp [map_eq_here]
    rw [hhere, h.here_iff]
    simp
  here y hy := by
    obtain ⟨x, rfl, rfl⟩ := map_eq_here.1 hy
    obtain ⟨hx, heq⟩ := h.here x rfl
    exact ⟨List.mem_map_of_mem hx, heq⟩
  empty_iff := by rw [map_eq_empty, h.empty_iff, List.map_eq_nil_iff]
  leftOf y hy := by
    obtain ⟨x, rfl, rfl⟩ := map_eq_leftOf.1 hy
    rw [List.find?_map]
    exact congrArg (Option.map f) (h.leftOf x rfl)
  rightOf y hy := by
    obtain ⟨x, rfl, rfl⟩ := map_eq_rightOf.1 hy
    rw [← List.map_reverse, List.find?_map]
    exact congrArg (Option.map f) (h.rightOf x rfl)

end SearchResult.Adjacent

/-- Answers may be taken before the map. -/
theorem Ascending.of_map {f : α → β} {order : β → Ordering} (h : Ascending order (xs.map f)) :
    Ascending (fun x => order (f x)) xs := by
  obtain ⟨less, equal, greater, hxs, hless, hequal, hgreater⟩ := h
  obtain ⟨fore, xs₃, rfl, hfore, rfl⟩ := List.map_eq_append_iff.1 hxs
  obtain ⟨xs₁, xs₂, rfl, rfl, rfl⟩ := List.map_eq_append_iff.1 hfore
  exact ⟨xs₁, xs₂, xs₃, rfl, fun x hx => hless _ (List.mem_map_of_mem hx),
    fun x hx => hequal _ (List.mem_map_of_mem hx), fun x hx => hgreater _ (List.mem_map_of_mem hx)⟩

end

/-! ## Searching in a store -/

section

variable {s : NodeStore K V T} {cfg : Config} {F : Multiset (Placed (Node K V T))}
  {p : Placed (Node K V T)} {f : Forest K V T} {t : Snapshot} {order : K → V → Ordering}

/-- The search ends at a node next to the gap. -/
theorem Subtree.searchBy_spec (hs : s.Sound cfg F) (hp : s.Unfolds p)
    (hasc : Ascending (fun x : Nat × Node K V T => order x.2.key x.2.value) p.toList) :
    ∃ res : SearchResult (Nat × Node K V T), searchBy s p.root order = .ok (res.map (·.1)) ∧
      res.Adjacent (fun x => order x.2.key x.2.value) p.toList := by
  rw [searchBy, Store.walk]
  suffices hwalk : ∃ acc, s.walkFor _ _ _ p.root = .ok acc ∧ ∃ res, acc = res.map (·.1) ∧
      Closing (fun x : Nat × Node K V T => order x.2.key x.2.value) p.toList [] res by
    obtain ⟨acc, hrun, res, rfl, hclosing⟩ := hwalk
    exact ⟨res, hrun, hclosing.adjacent⟩
  refine Store.walkFor_keeps _ (fun q acc => ∃ res, acc = res.map (·.1) ∧
      Closing (fun x : Nat × Node K V T => order x.2.key x.2.value) p.toList q.toList res)
    ?_ .empty ⟨.empty, rfl, .start _ _⟩ hp (Nat.le_of_lt (hs.depth_lt hp))
  rintro l i d r _ ⟨res, -, hclosing⟩
  dsimp only
  cases hord : order d.key d.value with
  | gt => exact ⟨l, _, .inl rfl, rfl, .leftOf (i, d), rfl, hclosing.toLeft hasc hord⟩
  | eq => exact ⟨.absent, _, .inr (.inr rfl), rfl, .here (i, d), rfl, hclosing.found hord⟩
  | lt => exact ⟨r, _, .inr (.inl rfl), rfl, .rightOf (i, d), rfl, hclosing.toRight hasc hord⟩

/-- What the search in a store answers is what the list of the entries says. -/
theorem Forest.searchBy_spec (hs : f.store.Sound cfg F) (hp : f.store.Unfolds p)
    (ht : t.root = p.root) (hasc : Ascending (fun e => order e.1 e.2) p.bare.entries) :
    ∃ res, f.searchBy t order = .ok res ∧
      res.Adjacent (fun e => order e.1 e.2) p.bare.entries := by
  rw [Store.entries_bare] at hasc ⊢
  obtain ⟨res, hrun, hadjacent⟩ := Subtree.searchBy_spec hs hp hasc.of_map
  refine ⟨res.map (·.2.entry), ?_, hadjacent.map⟩
  have hread : ∀ x, res.entry? = some x → ∃ cell, f.store.read x.1 = .ok cell ∧ cell.data = x.2 :=
    fun x hx => by
      obtain ⟨cell, hcell, hdata⟩ := Store.read_of_mem hp (hadjacent.mem hx)
      exact ⟨cell, by rw [Store.read, hcell], hdata⟩
  rw [searchBy, ht, bind_of_eq_ok hrun]
  cases res with
  | empty => rfl
  | leftOf x =>
    obtain ⟨cell, hcell, hdata⟩ := hread x rfl
    rw [SearchResult.map, SearchResult.map, ← hdata]
    exact bind_of_eq_ok hcell
  | here x =>
    obtain ⟨cell, hcell, hdata⟩ := hread x rfl
    rw [SearchResult.map, SearchResult.map, ← hdata]
    exact bind_of_eq_ok hcell
  | rightOf x =>
    obtain ⟨cell, hcell, hdata⟩ := hread x rfl
    rw [SearchResult.map, SearchResult.map, ← hdata]
    exact bind_of_eq_ok hcell

end

namespace Session

section

variable [Ord K] [Ord Q] [KeyView K Q] {sort : List (K × V) → List (K × V)}
  {aug : Augment K V T} {s : Session K V T} {t : Snapshot}

/-- In every session that a run reaches, and however keys compare, a search with a function that
orders entries against a target ends next to the target, if the answers ascend along the entries:
at an entry that fits exactly if there is one, at nothing exactly if the tree is empty, and else to
the left of the first entry that is too great or to the right of the last that is too small.  The
entries in question are all that the tree has; these are the ones that iteration yields as long as
their number fits into a word, which it does in a lawful order. -/
theorem search_adjacent {configs : List Config} (h : s.Reached Q sort aug configs)
    (ht : t ∈ s.handles) :
    ∃ f p, s.forests[t.forest]? = some f ∧ p.root = t.root ∧ f.store.Unfolds p ∧
      (p.count < 4294967296 → f.entries t = .ok p.bare.entries) ∧
      (TransOrd K → p.count < 4294967296) ∧
      ∀ order : K → V → Ordering, Ascending (fun e => order e.1 e.2) p.bare.entries →
        ∃ res, f.searchBy t order = .ok res ∧
          res.Adjacent (fun e => order e.1 e.2) p.bare.entries := by
  obtain ⟨f, c, F, p, hf, hsound, hunf, hroot, hbalanced⟩ :=
    (h.stands_as (closed_balanced aug) ht).place.view h.tidy_true
  refine ⟨f, p, hf, hroot.symm, hunf, fun hcount => ?_, fun _ => ?_, fun order hasc =>
    Forest.searchBy_spec hsound hunf hroot hasc⟩
  · rw [Forest.entries, hroot]
    refine Subtree.entries_spec hsound hunf ?_
    rw [size_toNat hbalanced.cached (by rwa [count_bare]), count_bare]
  · obtain ⟨x, hx⟩ := exists_holder h.tidy_true ht
    obtain ⟨f', c', F', p', hf', hroot', hsound', hunf', hord⟩ := h.exists_orderly hx
    obtain rfl := Option.some.inj (hf.symm.trans hf')
    rw [Store.unfolds_unique hunf hunf' (hroot.symm.trans hroot'.symm)]
    exact Store.count_lt_of_unfolds hsound' hunf' hord.increasing

end

/-- Searching by value for a 15, which would lie between the two entries. -/
theorem search_adjacent_shortRun : ∃ f res, shortRun.forests[0]? = some f ∧
    f.searchBy ⟨0, some 3, 2⟩ (fun _ v => compare v 15) = .ok res ∧
    res.Adjacent (fun e => compare e.2 15) [(1, 10), (2, 20)] := by
  obtain ⟨f, p, hf, -, -, hentries, hcount, hsearch⟩ := search_adjacent (t := ⟨0, some 3, 2⟩)
    reached_shortRun (by decide +kernel)
  have hall : ∀ f ∈ shortRun.forests[0]?, f.entries ⟨0, some 3, 2⟩ = .ok [(1, 10), (2, 20)] := by
    decide +kernel
  have hlist := Except.ok.inj ((hentries (hcount inferInstance)).symm.trans (hall f hf))
  rw [hlist] at hsearch
  obtain ⟨res, hrun, hadjacent⟩ := hsearch (fun _ v => compare v 15)
    ⟨[(1, 10)], [], [(2, 20)], by decide⟩
  exact ⟨f, res, hf, hrun, hadjacent⟩

end Session

end SharedForest
