/-
Trees as sorted lists.

With a lawful order of keys a handle stands for a list of entries with increasing keys,
and what an operation does to a forest is what one would do to such lists: `Lists` is the
abstraction, `Simulates` the diagram.  Each operation either succeeds and makes a handle
for the right list, or says that it has run out of places, or refuses for a reason that
can be read off the lists.  Handles that are there already keep their lists in any case.

That all this is so in every session that a run reaches is `simulates_lists`.
-/
import SharedForest.Proofs.Validity

set_option autoImplicit false

namespace SharedForest

open Tree Std Alarmed

variable {K Q V T : Type}

namespace Forest

/-! ## Lists that handles stand for -/

/-- The entries of the tree, in order, are `es`. -/
def Lists (f : Forest K V T) (t : Snapshot) (es : List (K × V)) : Prop :=
  ∃ p : Placed (Node K V T), p.root = t.root ∧ f.store.Unfolds p ∧ p.bare.entries = es

/-- The handles in `handles` that are of this forest stand for the same lists in `f'`. -/
def SameLists (handles : List Snapshot) (f f' : Forest K V T) : Prop :=
  ∀ u ∈ handles, u.forest = f.id → ∀ us, f.Lists u us → f'.Lists u us

/-- Some key of the left list is not below `k`, or some key of the right one is not above it. -/
def Blocked [Ord K] (es : List (K × V)) (k : K) (us : List (K × V)) : Prop :=
  (∃ e ∈ es, (compare e.1 k).isGE) ∨ ∃ e ∈ us, (compare e.1 k).isLE

/-- Both lists have entries, and the last key of the one is not below the first of the other. -/
def Overlap [Ord K] (es us : List (K × V)) : Prop :=
  ∃ a ∈ es.getLast?, ∃ b ∈ us.head?, (compare a.1 b.1).isGE

/-- What is done with the handle `t`, which stands for `es`, is what is done with `es`. -/
structure Simulates (Q : Type) [Ord K] [Ord Q] [KeyView K Q] (c : Config)
    (handles : List Snapshot) (f : Forest K V T) (t : Snapshot) (es : List (K × V)) : Prop where
  increasing : Increasing es
  get : ∀ key : Q, f.get? t key = .ok (valueAt key es)
  containsKey : ∀ key : Q, f.containsKey t key = .ok (valueAt key es).isSome
  first : f.first t = .ok es.head?
  last : f.last t = .ok es.getLast?
  insert : ∀ k v, Ends (insert t k v f)
    (fun t' f' => f'.Lists t' (put k v es) ∧ SameLists handles f f')
    (fun e f' => Full c e ∧ SameLists handles f f')
  remove : ∀ key : Q, Ends (remove t key f)
    (fun t' f' => f'.Lists t' (entriesWithout key es) ∧ SameLists handles f f')
    (fun e f' => Full c e ∧ SameLists handles f f')
  tryRemove : ∀ key : Q, Ends (tryRemove t key f)
    (fun res f' => valueAt key es = some res.2 ∧ f'.Lists res.1 (entriesWithout key es) ∧
      SameLists handles f f')
    (fun e f' => (Full c e ∨ (valueAt key es = none ∧ e = .refused .keyNotFound)) ∧
      SameLists handles f f')
  split : ∀ key : Q, Ends (split t key f)
    (fun res f' => f'.Lists res.1 (entriesBelow key es) ∧ res.2.1 = valueAt key es ∧
      f'.Lists res.2.2 (entriesAbove key es) ∧ SameLists handles f f')
    (fun e f' => Full c e ∧ SameLists handles f f')
  join_foreign : ∀ k v u, u.forest ≠ f.id → join t k v u f = .error (.refused .foreignTree) f
  join : ∀ u ∈ handles, u.forest = f.id → ∀ us, f.Lists u us → ∀ k v, Ends (join t k v u f)
    (fun t' f' => ¬ Blocked es k us ∧ f'.Lists t' (es ++ (k, v) :: us) ∧ SameLists handles f f')
    (fun e f' => (Full c e ∨ (Blocked es k us ∧ ∃ why, e = .refused (.invariantViolation why))) ∧
      SameLists handles f f')
  concat_foreign : ∀ u, u.forest ≠ f.id → concat t u f = .error (.refused .foreignTree) f
  concat : ∀ u ∈ handles, u.forest = f.id → ∀ us, f.Lists u us → Ends (concat t u f)
    (fun t' f' => ¬ Overlap es us ∧ f'.Lists t' (es ++ us) ∧ SameLists handles f f')
    (fun e f' => (Full c e ∨ (Overlap es us ∧ ∃ why, e = .refused (.invariantViolation why))) ∧
      SameLists handles f f')

variable {c : Config} {F : Multiset (Placed (Node K V T))} {p q : Placed (Node K V T)}
  {f f' : Forest K V T} {t u : Snapshot} {handles : List Snapshot} {es us : List (K × V)}

/-- A handle stands for one list only. -/
theorem Lists.unique (h : f.Lists t es) (h' : f.Lists t us) : es = us := by
  obtain ⟨p, hroot, hp, rfl⟩ := h
  obtain ⟨q, hroot', hq, rfl⟩ := h'
  rw [Store.unfolds_unique hp hq (hroot.trans hroot'.symm)]

/-- A new handle stands for the entries of its tree. -/
theorem Granted.lists {tree : NodeTree K V T} (h : Granted f c F tree t f') :
    f'.Lists t tree.entries := by
  obtain ⟨-, p, hroot, rfl, hholds⟩ := h
  exact ⟨p, hroot, hholds.sound.unfolds_last, rfl⟩

/-! ## Operations -/

section

variable (hsound : f.store.Sound c F)
  (hheld : ∀ u ∈ handles, u.forest = f.id → ∃ q ∈ F, u.root = q.root)
include hsound hheld

/-- A handle stands for the same list as long as its tree can be read off the store as before. -/
theorem sameLists_of_unfolds (h : ∀ q ∈ F, f'.store.Unfolds q) : SameLists handles f f' := by
  intro u hu hown us hlists
  obtain ⟨p, hroot, hp, rfl⟩ := hlists
  obtain ⟨q, hq, hroot'⟩ := hheld u hu hown
  obtain rfl : p = q := Store.unfolds_unique hp (hsound.unfolds hq) (hroot.trans hroot')
  exact ⟨p, hroot, h p hq, rfl⟩

/-- What is held on to keeps its list. -/
theorem sameLists_of_holds (h : f.Holds c F f') : SameLists handles f f' :=
  sameLists_of_unfolds hsound hheld fun _ hq => h.sound.unfolds hq

/-- A new handle has its list, and the old ones keep theirs. -/
theorem lists_of_granted {tree : NodeTree K V T} (h : Granted f c F tree t f') :
    f'.Lists t tree.entries ∧ SameLists handles f f' := by
  refine ⟨h.lists, ?_⟩
  obtain ⟨-, p, -, -, hholds⟩ := h
  exact sameLists_of_unfolds hsound hheld fun q hq => hholds.sound.unfolds (by simp [hq])

variable [Ord K] [TransOrd K] (hp : p ∈ F) (ht : t.root = p.root)
  (hinc : Increasing p.bare.entries)
include hp ht hinc

/-- An entry is put into the list in its place, or over the one with the same key. -/
theorem insert_lists (k : K) (v : V) :
    Ends (insert t k v f)
      (fun t' f' => f'.Lists t' (put k v p.bare.entries) ∧ SameLists handles f f')
      (fun e f' => Full c e ∧ SameLists handles f f') := by
  refine (insert_spec k v hsound hp ht).mono ?_ ?_
  · intro t' f' hgranted
    rw [← entries_insert f.augment hinc]
    exact lists_of_granted hsound hheld hgranted
  · intro e f' hrefused
    exact ⟨hrefused.1, sameLists_of_holds hsound hheld hrefused.2⟩

variable [Ord Q] [KeyView K Q] [TransOrd Q] [LawfulView K Q]

/-- The entry with the key is taken out of the list; if there is none, that is the reason to fail,
and the only one besides a lack of places. -/
theorem tryRemove_lists (key : Q) :
    Ends (tryRemove t key f)
      (fun res f' => valueAt key p.bare.entries = some res.2 ∧
        f'.Lists res.1 (entriesWithout key p.bare.entries) ∧ SameLists handles f f')
      (fun e f' => (Full c e ∨ (valueAt key p.bare.entries = none ∧ e = .refused .keyNotFound)) ∧
        SameLists handles f f') := by
  obtain ⟨hentries, hvalue⟩ := entries_remove f.augment (cut_sought key) hinc
  rw [filter_sought_ne] at hentries
  rw [find?_sought] at hvalue
  refine (tryRemove_spec key hsound hp ht).mono ?_ ?_
  · rintro res f' ⟨hsome, hgranted⟩
    rw [← hentries, ← hvalue]
    exact ⟨hsome, lists_of_granted hsound hheld hgranted⟩
  · rintro e f' ⟨hwhy, hholds⟩
    refine ⟨hwhy.imp_right fun hmissing => ?_, sameLists_of_holds hsound hheld hholds⟩
    rw [← hvalue]
    exact hmissing

/-- The same where a missing key is no failure: the list is then as it was. -/
theorem remove_lists (hown : t.forest = f.id) (key : Q) :
    Ends (remove t key f)
      (fun t' f' => f'.Lists t' (entriesWithout key p.bare.entries) ∧ SameLists handles f f')
      (fun e f' => Full c e ∧ SameLists handles f f') := by
  obtain ⟨hentries, hvalue⟩ := entries_remove f.augment (cut_sought key) hinc
  rw [filter_sought_ne] at hentries
  rw [find?_sought] at hvalue
  refine (remove_spec key hsound hp ht hown).mono ?_ ?_
  · intro t' f' hres
    rw [hvalue] at hres
    cases hfound : valueAt key p.bare.entries with
    | none =>
      -- The answer is a copy, and the list without an entry that is not there is the list.
      rw [hfound] at hres
      rw [entriesWithout_eq_self hfound]
      exact lists_of_granted hsound hheld hres.2
    | some v =>
      rw [hfound] at hres
      rw [← hentries]
      exact lists_of_granted hsound hheld hres
  · intro e f' hrefused
    exact ⟨hrefused.1, sameLists_of_holds hsound hheld hrefused.2⟩

/-- The list is cut at the key, and the entry with the key is left out of both parts. -/
theorem split_lists (key : Q) :
    Ends (split t key f)
      (fun res f' => f'.Lists res.1 (entriesBelow key p.bare.entries) ∧
        res.2.1 = valueAt key p.bare.entries ∧
        f'.Lists res.2.2 (entriesAbove key p.bare.entries) ∧ SameLists handles f f')
      (fun e f' => Full c e ∧ SameLists handles f f') := by
  obtain ⟨hbelow, hfound, habove⟩ := split_of_increasing f.augment (cut_sought key) hinc
  rw [filter_sought_gt] at hbelow
  rw [filter_sought_lt] at habove
  refine (split_spec key hsound hp ht).mono ?_ ?_
  · rintro res f' ⟨hres, -, -, x, y, hx, hx', hy, hy', hholds⟩
    refine ⟨⟨x, hx, hholds.sound.unfolds (by simp), ?_⟩, ?_, ⟨y, hy, hholds.sound.unfolds_last, ?_⟩,
      sameLists_of_unfolds hsound hheld fun q hq => hholds.sound.unfolds (by simp [hq])⟩
    · rw [hx', entries_blacken, hbelow]
    · rw [hres, hfound, find?_sought]
    · rw [hy', entries_blacken, habove]
  · intro e f' hrefused
    exact ⟨hrefused.1, sameLists_of_holds hsound hheld hrefused.2⟩

end

/-- The boundary checks look at two keys and tell about all of them. -/
theorem blocked_iff [Ord K] [TransOrd K] {l r : NodeTree K V T} (hl : Increasing l.entries)
    (hr : Increasing r.entries) (k : K) :
    Blocked l.entries k r.entries ↔ ¬ (EndsBefore l k ∧ StartsAfter r k) := by
  constructor
  · rintro (⟨e, he, hge⟩ | ⟨e, he, hle⟩) ⟨hbefore, hafter⟩
    · rw [lt_of_endsBefore hl hbefore e he] at hge
      cases hge
    · rw [OrientedCmp.gt_of_lt (lt_of_startsAfter hr hafter e he)] at hle
      cases hle
  -- The last key of the left list and the first key of the right one are witnesses already.
  · intro hnot
    by_contra hfree
    refine hnot ⟨fun e he => ?_, fun e he => ?_⟩
    · by_contra hne
      exact hfree (.inl ⟨e, List.mem_of_getLast? he, Ordering.isGE_iff_ne_lt.2 hne⟩)
    · by_contra hne
      exact hfree (.inr ⟨e, List.mem_of_head? he, Ordering.isLE_iff_ne_gt.2 hne⟩)

/-- The check that looks at the last key of one tree and the first of the other is a check of all
keys. -/
theorem overlap_iff [Ord K] (l r : NodeTree K V T) : Overlap l.entries r.entries ↔ ¬ Apart l r := by
  constructor
  · rintro ⟨a, ha, b, hb, hge⟩ hapart
    rw [hapart a ha b hb] at hge
    cases hge
  · intro hnot
    by_contra hfree
    refine hnot fun a ha b hb => ?_
    by_contra hne
    exact hfree ⟨a, ha, b, hb, Ordering.isGE_iff_ne_lt.2 hne⟩

section

variable [Ord K] (hsound : f.store.Sound c F)
  (hheld : ∀ u ∈ handles, u.forest = f.id → ∃ q ∈ F, u.root = q.root) (hp : p ∈ F)
  (ht : t.root = p.root) (hq : q ∈ F) (hu : u.root = q.root) (hown : u.forest = f.id)
include hsound hheld hp ht hq hu hown

/-- The lists are put together over the new entry, unless a key is in the way. -/
theorem join_lists [TransOrd K] (hinc : Increasing p.bare.entries)
    (hinc' : Increasing q.bare.entries) (k : K) (v : V) : Ends (join t k v u f)
    (fun t' f' => ¬ Blocked p.bare.entries k q.bare.entries ∧
      f'.Lists t' (p.bare.entries ++ (k, v) :: q.bare.entries) ∧ SameLists handles f f')
    (fun e f' => (Full c e ∨ (Blocked p.bare.entries k q.bare.entries ∧
      ∃ why, e = .refused (.invariantViolation why))) ∧ SameLists handles f f') := by
  rw [blocked_iff hinc hinc']
  refine (join_spec k v hsound hp ht hq hu hown).mono ?_ ?_
  · rintro t' f' ⟨hbefore, hafter, hgranted⟩
    refine ⟨not_not.2 ⟨hbefore, hafter⟩, ?_⟩
    have hlists := lists_of_granted hsound hheld hgranted
    rwa [entries_blacken, entries_join] at hlists
  · rintro e f' ⟨hwhy, hholds⟩
    refine ⟨?_, sameLists_of_holds hsound hheld hholds⟩
    rcases hwhy with hfull | ⟨hno, rfl⟩ | ⟨hno, rfl⟩
    · exact .inl hfull
    · exact .inr ⟨fun hboth => hno hboth.1, _, rfl⟩
    · exact .inr ⟨fun hboth => hno hboth.2, _, rfl⟩

/-- The lists are put together as they are, unless their keys overlap. -/
theorem concat_lists : Ends (concat t u f)
    (fun t' f' => ¬ Overlap p.bare.entries q.bare.entries ∧
      f'.Lists t' (p.bare.entries ++ q.bare.entries) ∧ SameLists handles f f')
    (fun e f' => (Full c e ∨ (Overlap p.bare.entries q.bare.entries ∧
      ∃ why, e = .refused (.invariantViolation why))) ∧ SameLists handles f f') := by
  rw [overlap_iff]
  refine (concat_spec hsound hp ht hq hu hown).mono ?_ ?_
  · rintro t' f' ⟨hapart, hgranted⟩
    refine ⟨not_not.2 hapart, ?_⟩
    have hlists := lists_of_granted hsound hheld hgranted
    rwa [entries_blacken, entries_append] at hlists
  · rintro e f' ⟨hwhy, hholds⟩
    refine ⟨?_, sameLists_of_holds hsound hheld hholds⟩
    rcases hwhy with hfull | ⟨hno, rfl⟩
    · exact .inl hfull
    · exact .inr ⟨hno, _, rfl⟩

end

/-! ## Reading -/

/-- What a search finds is what stands at the key. -/
theorem seek_lists [Ord K] [TransOrd K] [Ord Q] [KeyView K Q] [TransOrd Q] [LawfulView K Q]
    (aug : Augment K V T) (hinc : Increasing p.bare.entries) (key : Q) :
    (p.seek (sought key)).map (·.2.value) = valueAt key p.bare.entries := by
  have hfound := (split_of_increasing aug (cut_sought key) hinc).2.1
  rw [found_split] at hfound
  rw [← find?_sought, ← hfound, Option.map_map]
  rfl

section

variable (hsound : f.store.Sound c F) (hunf : f.store.Unfolds p) (ht : t.root = p.root)
include hunf

/-- The entry of a node of a held tree, by its slot. -/
theorem entryAt_eq {x : Option (Nat × Node K V T)} (hx : ∀ y ∈ x, y ∈ p.toList) :
    f.entryAt (x.map (·.1)) = .ok (x.map (·.2.entry)) := by
  cases x with
  | none => rfl
  | some y =>
    obtain ⟨cell, hcell, hdata⟩ := Store.read_of_mem hunf (hx y rfl)
    have hread : f.store.read y.1 = .ok cell := by
      rw [Store.read, hcell]
    rw [Option.map_some, entryAt, hread, Option.map_some, ← hdata]
    rfl

include hsound ht

/-- The first entry of the tree is the first of the list, and there is none if the list is empty. -/
theorem first_lists : f.first t = .ok p.bare.entries.head? := by
  have hfirst := Subtree.first_spec hsound hunf
  have hentry := entryAt_eq hunf (x := p.toList.head?) fun y hy => List.mem_of_head? hy
  rw [first, ht, hfirst]
  show f.entryAt _ = _
  rw [hentry, Tree.entries, bare, toList_map, List.map_map, List.head?_map]
  rfl

theorem last_lists : f.last t = .ok p.bare.entries.getLast? := by
  have hlast := Subtree.last_spec hsound hunf
  have hentry := entryAt_eq hunf (x := p.toList.getLast?) fun y hy => List.mem_of_getLast? hy
  rw [last, ht, hlast]
  show f.entryAt _ = _
  rw [hentry, Tree.entries, bare, toList_map, List.map_map, List.getLast?_map]
  rfl

variable [Ord K] [TransOrd K] [Ord Q] [KeyView K Q] [TransOrd Q] [LawfulView K Q]
  (hinc : Increasing p.bare.entries)
include hinc

/-- A lookup answers with the value that stands beside the key in the list. -/
theorem get_lists (key : Q) : f.get? t key = .ok (valueAt key p.bare.entries) := by
  have hfind := Subtree.find_spec key hsound hunf
  have hentry := entryAt_eq hunf (x := p.seek (sought key)) fun y hy => (mem_of_seek hy).1
  rw [get?, ht, hfind]
  show (do return (← f.entryAt _).map Prod.snd) = _
  rw [hentry, ← seek_lists f.augment hinc key]
  cases p.seek (sought key) <;> rfl

theorem containsKey_lists (key : Q) :
    f.containsKey t key = .ok (valueAt key p.bare.entries).isSome := by
  have hfind := Subtree.find_spec key hsound hunf
  rw [containsKey, ht, hfind, ← seek_lists f.augment hinc key]
  cases p.seek (sought key) <;> rfl

end

/-- In a forest whose trees are valid every handle simulates the list it stands for. -/
theorem simulates_of_backs [Ord K] [TransOrd K] [Ord Q] [KeyView K Q] [TransOrd Q]
    [LawfulView K Q] {aug : Augment K V T}
    (h : f.Backs c (Valid aug) (handles.filter (·.forest = f.id) : List Snapshot))
    (ht : t ∈ handles) (hown : t.forest = f.id) :
    ∃ es, f.Lists t es ∧ f.Simulates Q c handles t es := by
  obtain ⟨F, hF, hsound, hvalid⟩ := h
  have hheld : ∀ u ∈ handles, u.forest = f.id → ∃ q ∈ F, u.root = q.root := by
    intro u hu hown
    exact exists_tree hF (Multiset.mem_coe.2 (List.mem_filter.2 ⟨hu, decide_eq_true hown⟩))
  obtain ⟨p, hp, hroot⟩ := hheld t ht hown
  have hunf := hsound.unfolds hp
  have hinc := (hvalid p hp).increasing
  -- The list of any other handle is that of its tree among the held ones.
  have hother : ∀ u ∈ handles, u.forest = f.id → ∀ us, f.Lists u us →
      ∃ q ∈ F, u.root = q.root ∧ us = q.bare.entries := by
    intro u hu hown us hus
    obtain ⟨q, hq, hroot'⟩ := hheld u hu hown
    exact ⟨q, hq, hroot', hus.unique ⟨q, hroot'.symm, hsound.unfolds hq, rfl⟩⟩
  refine ⟨p.bare.entries, ⟨p, hroot.symm, hunf, rfl⟩, ?_⟩
  constructor
  case increasing => exact hinc
  case get => exact get_lists hsound hunf hroot hinc
  case containsKey => exact containsKey_lists hsound hunf hroot hinc
  case first => exact first_lists hsound hunf hroot
  case last => exact last_lists hsound hunf hroot
  case insert => exact insert_lists hsound hheld hp hroot hinc
  case remove => exact remove_lists hsound hheld hp hroot hinc hown
  case tryRemove => exact tryRemove_lists hsound hheld hp hroot hinc
  case split => exact split_lists hsound hheld hp hroot hinc
  case join_foreign => exact fun k v u hu => join_foreign k v hu
  case concat_foreign => exact fun u hu => concat_foreign hu
  case join =>
    intro u hu hown' us hus k v
    obtain ⟨q, hq, hroot', rfl⟩ := hother u hu hown' us hus
    exact join_lists hsound hheld hp hroot hq hroot' hown' hinc (hvalid q hq).increasing k v
  case concat =>
    intro u hu hown' us hus
    obtain ⟨q, hq, hroot', rfl⟩ := hother u hu hown' us hus
    exact concat_lists hsound hheld hp hroot hq hroot' hown'

end Forest

namespace Session

/-- In every session that a run reaches every handle stands for a sorted list, and every operation
on it does what it would do to that list. -/
theorem simulates_lists [Ord K] [TransOrd K] [Ord Q] [KeyView K Q] [TransOrd Q] [LawfulView K Q]
    {aug : Augment K V T} {configs : List Config} {sort : List (K × V) → List (K × V)}
    {s : Session K V T} {t : Snapshot} (h : s.Reached Q sort aug configs) (ht : t ∈ s.handles) :
    ∃ f c es, s.forests[t.forest]? = some f ∧ configs[t.forest]? = some c ∧ f.Lists t es ∧
      f.Simulates Q c s.handles t es := by
  have htidy := h.tidy (closed_valid (Q := Q) aug)
  obtain ⟨f, hf, hmem⟩ := has_of_mem_handles htidy ht
  obtain ⟨c, hc⟩ := htidy.exists_config hf
  obtain ⟨hid, -, htended⟩ := htidy.tended t.forest f c hf hc
  have hbacks := htended.backs
  rw [add_zero, htidy.held_eq hf, ← hid] at hbacks
  obtain ⟨es, hes, hsim⟩ := Forest.simulates_of_backs (Q := Q) hbacks ht hid.symm
  exact ⟨f, c, es, hf, hc, hes, hsim⟩

theorem simulates_lists_shortRun : ∃ f c es, shortRun.forests[0]? = some f ∧
    [{ reclamation := .deferred 2 }][0]? = some c ∧ f.Lists ⟨0, some 3, 2⟩ es ∧
      f.Simulates Nat c shortRun.handles ⟨0, some 3, 2⟩ es :=
  simulates_lists (t := ⟨0, some 3, 2⟩) reached_shortRun (by decide +kernel)

end Session

end SharedForest
