/-
A forest and the snapshots that are held of it.

A multiset of snapshots is what a client of a forest has; `Backs f c P H` says that the
books of the forest agree with it: there is one held tree for each snapshot in `H`, with
the same root, and every one of these trees satisfies `P`.  The property `P` is left open.
It is the trivial one where only counts and places matter, and a real one where trees must
be in balance or in order, which takes more assumptions about keys.  What an operation has
to do with it is collected in `Closed`.

An operation adds the snapshots it makes to those that are held, `Advance`, and leaves the
tree of every other snapshot as it is, `Keeps`.
-/
import SharedForest.Proofs.Derivation

set_option autoImplicit false

namespace SharedForest

open Store Alarmed

variable {γ K Q V T α : Type}

/-! ## Properties that operations preserve -/

/-- The tree is kept in some store whose books are right. -/
def Tree.Kept (tree : NodeTree K V T) : Prop :=
  ∃ (s : NodeStore K V T) (c : Config) (F : Multiset (Placed (Node K V T)))
    (p : Placed (Node K V T)), s.Sound c F ∧ s.Unfolds p ∧ p.bare = tree

open Forest in
/-- Whatever is made of trees that satisfy `P` satisfies `P`. -/
structure Closed [Ord K] (Q : Type) [Ord Q] [KeyView K Q] (aug : Augment K V T)
    (P : NodeTree K V T → Prop) : Prop where
  absent : P .absent
  build : ∀ items, firstDisorder items 0 = none → P (.build aug items items.length)
  insert : ∀ t k v, P t → t.Kept → P (t.insert aug k v)
  remove : ∀ t (key : Q), P t → t.Kept → P (t.remove aug (sought key)).1
  below : ∀ t (key : Q), P t → t.Kept → P ((t.split aug (sought key)).below.blacken aug)
  above : ∀ t (key : Q), P t → t.Kept → P ((t.split aug (sought key)).above.blacken aug)
  join : ∀ l k v r, P l → l.Kept → P r → r.Kept → EndsBefore l k → StartsAfter r k →
    P ((l.join aug k v r).blacken aug)
  append : ∀ l r, P l → l.Kept → P r → r.Kept → Apart l r → P ((l.append aug r).blacken aug)
  union : ∀ {γ : Type} (merge : K → V → V → γ → V × γ) l r g, P l → l.Kept → P r → r.Kept →
    P ((l.union aug merge r g).1.blacken aug)

/-- Nothing at all is such a property. -/
theorem closed_true [Ord K] [Ord Q] [KeyView K Q] (aug : Augment K V T) :
    Closed Q aug fun _ => True := by
  constructor <;> intros <;> trivial

namespace Forest

variable {c : Config} {F : Multiset (Placed (Node K V T))} {p q : Placed (Node K V T)}
  {f f₀ f₁ f' : Forest K V T} {t u : Snapshot} {P : NodeTree K V T → Prop}
  {H H' L : Multiset Snapshot}

/-! ## Books by snapshots -/

/-- There is a held tree with property `P` for every snapshot in `H`, and no other. -/
def Backs (f : Forest K V T) (c : Config) (P : NodeTree K V T → Prop) (H : Multiset Snapshot) :
    Prop :=
  ∃ F : Multiset (Placed (Node K V T)), F.map Tree.root = H.map Snapshot.root ∧
    f.store.Sound c F ∧ ∀ p ∈ F, P p.bare

/-- The trees of the snapshots in `H` are the same in both forests. -/
def Keeps (H : Multiset Snapshot) (f f' : Forest K V T) : Prop :=
  ∀ t ∈ H, ∀ p : Placed (Node K V T), p.root = t.root → f.store.Unfolds p → f'.store.Unfolds p

/-- The forest has gone on from `f`, and the snapshots in `L` are new. -/
structure Advance (f : Forest K V T) (c : Config) (P : NodeTree K V T → Prop)
    (H L : Multiset Snapshot) (f' : Forest K V T) : Prop where
  id : f'.id = f.id
  augment : f'.augment = f.augment
  registry : f'.registry = f.registry
  backs : f'.Backs c P (H + L)
  keeps : Keeps H f f'
  own : ∀ t ∈ L, t.forest = f.id

theorem Keeps.refl : Keeps H f f := fun _ _ _ _ h => h

/-- Trees that are kept by one step and the next are kept by both. -/
theorem Keeps.trans (h : Keeps H f f₁) (h' : Keeps H f₁ f') : Keeps H f f' :=
  fun t ht p hp hunf => h' t ht p hp (h t ht p hp hunf)

/-- The tree of a snapshot that is held. -/
theorem exists_tree (hF : F.map Tree.root = H.map Snapshot.root) (ht : t ∈ H) :
    ∃ p ∈ F, t.root = p.root := by
  have hmem : t.root ∈ F.map Tree.root := by
    rw [hF]
    exact Multiset.mem_map_of_mem _ ht
  obtain ⟨p, hp, hroot⟩ := Multiset.mem_map.1 hmem
  exact ⟨p, hp, hroot.symm⟩

/-- The tree of a snapshot that is held, and the trees of the others. -/
theorem exists_rest (hF : F.map Tree.root = (H + {t}).map Snapshot.root) :
    ∃ G p, F = G + {p} ∧ p.root = t.root ∧ G.map Tree.root = H.map Snapshot.root := by
  classical
  rw [Multiset.map_add, Multiset.map_singleton, add_comm, Multiset.singleton_add,
    ← Multiset.map_eq_cons] at hF
  obtain ⟨p, hp, hroot, hrest⟩ := hF
  refine ⟨F.erase p, p, ?_, hroot, hrest⟩
  rw [add_comm, Multiset.singleton_add, Multiset.cons_erase hp]

/-- Snapshots whose trees are held in both forests have the same trees there. -/
theorem keeps_of_sound {G : Multiset (Placed (Node K V T))}
    (hG : G.map Tree.root = H.map Snapshot.root) (h : ∀ p ∈ G, f.store.Unfolds p)
    (h' : ∀ p ∈ G, f'.store.Unfolds p) : Keeps H f f' := by
  intro t ht p hp hunf
  obtain ⟨q, hq, hroot⟩ := exists_tree hG ht
  -- A root unfolds in one way only, so `p` is the tree that is held.
  obtain rfl : p = q := unfolds_unique hunf (h q hq) (hp.trans hroot)
  exact h' p hq

/-- A held tree is kept in a store with right books, the one it is in. -/
theorem kept_of_mem (h : f.store.Sound c F) (hp : p ∈ F) : p.bare.Kept :=
  ⟨f.store, c, F, p, h, h.unfolds hp, rfl⟩

/-! ## What the laws say in terms of snapshots -/

section

variable (hF : F.map Tree.root = H.map Snapshot.root) (hsound : f.store.Sound c F)
  (hP : ∀ p ∈ F, P p.bare)
include hF hsound hP

/-- A tree with property `P` that is granted under one new snapshot. -/
theorem advance_of_granted {tree : NodeTree K V T} (h : Granted f c F tree t f') (htree : P tree) :
    Advance f c P H {t} f' := by
  obtain ⟨hid, p, hroot, rfl, hholds⟩ := h
  refine ⟨hholds.id, hholds.augment, hholds.registry, ⟨F + {p}, ?_, hholds.sound, ?_⟩, ?_, ?_⟩
  · rw [Multiset.map_add, hF, Multiset.map_add, Multiset.map_singleton, Multiset.map_singleton,
      hroot]
  · intro q hq
    rcases Multiset.mem_add.1 hq with hq | hq
    · exact hP q hq
    · rw [Multiset.mem_singleton.1 hq]
      exact htree
  · exact keeps_of_sound hF (fun q hq => hsound.unfolds hq)
      fun q hq => hholds.sound.unfolds (Multiset.mem_add.2 (.inl hq))
  · intro u hu
    rw [Multiset.mem_singleton.1 hu]
    exact hid

/-- Two such trees, under a snapshot each. -/
theorem advance_of_two {below above : NodeTree K V T} (h : GrantedTwo f c F below above t u f')
    (hbelow : P below) (habove : P above) : Advance f c P H ({t} + {u}) f' := by
  obtain ⟨hid, hid', p, q, hroot, rfl, hroot', rfl, hholds⟩ := h
  refine ⟨hholds.id, hholds.augment, hholds.registry, ⟨F + {p} + {q}, ?_, hholds.sound, ?_⟩,
    ?_, ?_⟩
  · rw [← add_assoc]
    simp only [Multiset.map_add, Multiset.map_singleton, hF, hroot, hroot']
  · intro x hx
    rcases Multiset.mem_add.1 hx with hx | hx
    · rcases Multiset.mem_add.1 hx with hx | hx
      · exact hP x hx
      · rw [Multiset.mem_singleton.1 hx]
        exact hbelow
    · rw [Multiset.mem_singleton.1 hx]
      exact habove
  · exact keeps_of_sound hF (fun q hq => hsound.unfolds hq)
      fun q hq => hholds.sound.unfolds (by simp [hq])
  · intro x hx
    rcases Multiset.mem_add.1 hx with hx | hx
    · rw [Multiset.mem_singleton.1 hx]
      exact hid
    · rw [Multiset.mem_singleton.1 hx]
      exact hid'

/-- Nothing is granted, and what was held is held still. -/
theorem advance_of_holds (h : f.Holds c F f') : Advance f c P H 0 f' := by
  refine ⟨h.id, h.augment, h.registry, ⟨F, ?_, h.sound, hP⟩, ?_, ?_⟩
  · rw [add_zero, hF]
  · exact keeps_of_sound hF (fun q hq => hsound.unfolds hq) fun q hq => h.sound.unfolds hq
  · intro t ht
    exact absurd ht (Multiset.notMem_zero t)

end

/-- A refusal before anything is built. -/
theorem advance_refused (h : f.Backs c P H) : Advance f c P H 0 f := by
  obtain ⟨F, hF, hsound, hall⟩ := h
  exact advance_of_holds hF hsound hall (.refl hsound)

/-! ## Operations

All of them advance the forest, with the snapshots they answer with if they answer with
any, and with none if they fail. -/

section

variable [Ord K] [Ord Q] [KeyView K Q]

/-- The empty tree is one that has the property. -/
theorem advance_empty (hP : Closed Q f.augment P) (h : f.Backs c P H) :
    Ends (empty f) (fun u f' => Advance f c P H {u} f') fun _ f' => Advance f c P H 0 f' := by
  obtain ⟨F, hF, hsound, hall⟩ := h
  refine (empty_spec hsound).mono ?_ ?_
  · intro u f' hgranted
    exact advance_of_granted hF hsound hall hgranted hP.absent
  · intro e f' hrefused
    exact advance_of_holds hF hsound hall hrefused.2

/-- A tree that is built from a sorted list has the property, and no other list is built from. -/
theorem advance_ofSorted (hP : Closed Q f.augment P) (h : f.Backs c P H) (items : List (K × V)) :
    Ends (ofSorted items f) (fun u f' => Advance f c P H {u} f')
      fun _ f' => Advance f c P H 0 f' := by
  obtain ⟨F, hF, hsound, hall⟩ := h
  refine (ofSorted_spec items hsound).mono ?_ ?_
  · rintro u f' ⟨hnone, hgranted⟩
    exact advance_of_granted hF hsound hall hgranted (hP.build items hnone)
  · intro e f' hrefused
    exact advance_of_holds hF hsound hall hrefused.2

/-- The snapshot that was inserted into is still held, beside the new one. -/
theorem advance_insert (hP : Closed Q f.augment P) (h : f.Backs c P H) (ht : t ∈ H) (k : K)
    (v : V) :
    Ends (insert t k v f) (fun u f' => Advance f c P H {u} f')
      fun _ f' => Advance f c P H 0 f' := by
  obtain ⟨F, hF, hsound, hall⟩ := h
  obtain ⟨p, hp, hroot⟩ := exists_tree hF ht
  refine (insert_spec k v hsound hp hroot).mono ?_ ?_
  · intro u f' hgranted
    exact advance_of_granted hF hsound hall hgranted
      (hP.insert _ k v (hall p hp) (kept_of_mem hsound hp))
  · intro e f' hrefused
    exact advance_of_holds hF hsound hall hrefused.2

/-- A removal that asks for the key: without it, no snapshot is made. -/
theorem advance_tryRemove (hP : Closed Q f.augment P) (h : f.Backs c P H) (ht : t ∈ H) (key : Q) :
    Ends (tryRemove t key f) (fun res f' => Advance f c P H {res.1} f')
      fun _ f' => Advance f c P H 0 f' := by
  obtain ⟨F, hF, hsound, hall⟩ := h
  obtain ⟨p, hp, hroot⟩ := exists_tree hF ht
  refine (tryRemove_spec key hsound hp hroot).mono ?_ ?_
  · rintro res f' ⟨-, hgranted⟩
    exact advance_of_granted hF hsound hall hgranted
      (hP.remove _ key (hall p hp) (kept_of_mem hsound hp))
  · intro e f' hrefused
    exact advance_of_holds hF hsound hall hrefused.2

/-- A removal that does not ask for it: without the key, the tree is copied. -/
theorem advance_remove (hP : Closed Q f.augment P) (h : f.Backs c P H) (ht : t ∈ H)
    (hown : t.forest = f.id) (key : Q) :
    Ends (remove t key f) (fun u f' => Advance f c P H {u} f')
      fun _ f' => Advance f c P H 0 f' := by
  obtain ⟨F, hF, hsound, hall⟩ := h
  obtain ⟨p, hp, hroot⟩ := exists_tree hF ht
  refine (remove_spec key hsound hp hroot hown).mono ?_ ?_
  · intro u f' hres
    cases hfound : (p.bare.remove f.augment (sought key)).2 with
    | none =>
      rw [hfound] at hres
      exact advance_of_granted hF hsound hall hres.2 (hall p hp)
    | some v =>
      rw [hfound] at hres
      exact advance_of_granted hF hsound hall hres
        (hP.remove _ key (hall p hp) (kept_of_mem hsound hp))
  · intro e f' hrefused
    exact advance_of_holds hF hsound hall hrefused.2

/-- Both parts are new, and the snapshot that was split is still held. -/
theorem advance_split (hP : Closed Q f.augment P) (h : f.Backs c P H) (ht : t ∈ H) (key : Q) :
    Ends (split t key f) (fun res f' => Advance f c P H ({res.1} + {res.2.2}) f')
      fun _ f' => Advance f c P H 0 f' := by
  obtain ⟨F, hF, hsound, hall⟩ := h
  obtain ⟨p, hp, hroot⟩ := exists_tree hF ht
  refine (split_spec key hsound hp hroot).mono ?_ ?_
  · rintro res f' ⟨-, hgranted⟩
    exact advance_of_two hF hsound hall hgranted
      (hP.below _ key (hall p hp) (kept_of_mem hsound hp))
      (hP.above _ key (hall p hp) (kept_of_mem hsound hp))
  · intro e f' hrefused
    exact advance_of_holds hF hsound hall hrefused.2

/-- The other operand may be of another forest, and is refused then; it has to be held only if it is
not. -/
theorem advance_join (hP : Closed Q f.augment P) (h : f.Backs c P H) (ht : t ∈ H)
    (hu : u.forest = f.id → u ∈ H) (k : K) (v : V) :
    Ends (join t k v u f) (fun w f' => Advance f c P H {w} f')
      fun _ f' => Advance f c P H 0 f' := by
  by_cases hown : u.forest = f.id
  · obtain ⟨F, hF, hsound, hall⟩ := h
    obtain ⟨p, hp, hroot⟩ := exists_tree hF ht
    obtain ⟨q, hq, hroot'⟩ := exists_tree hF (hu hown)
    refine (join_spec k v hsound hp hroot hq hroot' hown).mono ?_ ?_
    · rintro w f' ⟨hbefore, hafter, hgranted⟩
      exact advance_of_granted hF hsound hall hgranted
        (hP.join _ k v _ (hall p hp) (kept_of_mem hsound hp) (hall q hq) (kept_of_mem hsound hq)
          hbefore hafter)
    · intro e f' hrefused
      exact advance_of_holds hF hsound hall hrefused.2
  · rw [join_foreign k v hown]
    exact .error (advance_refused h)

/-- As for a join, with no entry between. -/
theorem advance_concat (hP : Closed Q f.augment P) (h : f.Backs c P H) (ht : t ∈ H)
    (hu : u.forest = f.id → u ∈ H) :
    Ends (concat t u f) (fun w f' => Advance f c P H {w} f')
      fun _ f' => Advance f c P H 0 f' := by
  by_cases hown : u.forest = f.id
  · obtain ⟨F, hF, hsound, hall⟩ := h
    obtain ⟨p, hp, hroot⟩ := exists_tree hF ht
    obtain ⟨q, hq, hroot'⟩ := exists_tree hF (hu hown)
    refine (concat_spec hsound hp hroot hq hroot' hown).mono ?_ ?_
    · rintro w f' ⟨hapart, hgranted⟩
      exact advance_of_granted hF hsound hall hgranted
        (hP.append _ _ (hall p hp) (kept_of_mem hsound hp) (hall q hq) (kept_of_mem hsound hq)
          hapart)
    · intro e f' hrefused
      exact advance_of_holds hF hsound hall hrefused.2
  · rw [concat_foreign hown]
    exact .error (advance_refused h)

/-- Whatever the merge function carries along, it does not touch the forest. -/
theorem advance_union (hP : Closed Q f.augment P) (h : f.Backs c P H) (ht : t ∈ H)
    (hu : u.forest = f.id → u ∈ H) (merge : K → V → V → γ → V × γ) (g : γ) :
    Ends (CarryM.runFrom g (union merge t u) f) (fun res f' => Advance f c P H {res.1} f')
      fun _ f' => Advance f c P H 0 f' := by
  by_cases hown : u.forest = f.id
  · obtain ⟨F, hF, hsound, hall⟩ := h
    obtain ⟨p, hp, hroot⟩ := exists_tree hF ht
    obtain ⟨q, hq, hroot'⟩ := exists_tree hF (hu hown)
    have hunion := union_spec merge g hsound hp hroot hq hroot' hown
    unfold CarryM.runFrom
    cases hr : union merge t u (f, g) with
    | ok w fg =>
      rw [hr] at hunion
      intro hs
      obtain ⟨f', rfl, hgranted⟩ := hunion hs
      exact advance_of_granted hF hsound hall hgranted
        (hP.union merge _ _ g (hall p hp) (kept_of_mem hsound hp) (hall q hq)
          (kept_of_mem hsound hq))
    | error e fg =>
      rw [hr] at hunion
      exact fun hs => advance_of_holds hF hsound hall (hunion hs).2
  · unfold CarryM.runFrom
    rw [union_foreign merge g hown]
    exact .error (advance_refused h)

end

/-- A copy is one more reference to a held tree. -/
theorem advance_copy (h : f.Backs c P H) (ht : t ∈ H) (hown : t.forest = f.id) :
    Ends (copy t f) (fun u f' => u = t ∧ Advance f c P H {t} f')
      fun _ f' => Advance f c P H 0 f' := by
  obtain ⟨F, hF, hsound, hall⟩ := h
  obtain ⟨p, hp, hroot⟩ := exists_tree hF ht
  refine (copy_spec hsound hp hroot).mono ?_ ?_
  · rintro u f' ⟨rfl, hholds⟩
    exact ⟨rfl, advance_of_granted hF hsound hall ⟨hown, p, hroot.symm, rfl, hholds⟩ (hall p hp)⟩
  · intro e f' hrefused
    exact advance_of_holds hF hsound hall hrefused.2

/-- What waits is taken back, and that is no held tree. -/
theorem advance_collect (h : f.Backs c P H) :
    ∃ n f', collect f = .ok n f' ∧ Advance f c P H 0 f' := by
  obtain ⟨F, hF, hsound, hall⟩ := h
  obtain ⟨n, f', hrun, hholds, -⟩ := collect_spec hsound
  exact ⟨n, f', hrun, advance_of_holds hF hsound hall hholds⟩

/-- Giving a snapshot up leaves all others. -/
theorem advance_drop (h : f.Backs c P (H + {t})) :
    ∃ f', drop t f = .ok () f' ∧ Advance f c P H 0 f' := by
  obtain ⟨F, hF, hsound, hall⟩ := h
  obtain ⟨G, p, rfl, hroot, hG⟩ := exists_rest hF
  obtain ⟨f', hrun, hholds⟩ := drop_spec hsound hroot.symm
  refine ⟨f', hrun, hholds.id, hholds.augment, hholds.registry, ⟨G, ?_, hholds.sound, ?_⟩, ?_, ?_⟩
  · rw [add_zero, hG]
  · exact fun q hq => hall q (Multiset.mem_add.2 (.inl hq))
  · exact keeps_of_sound hG (fun q hq => hsound.unfolds (Multiset.mem_add.2 (.inl hq)))
      fun q hq => hholds.sound.unfolds hq
  · intro u hu
    exact absurd hu (Multiset.notMem_zero u)

end Forest

end SharedForest
