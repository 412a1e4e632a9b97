/-
Who holds what in a session.

A session is tidy when the books of every forest agree with the handles there are:
those under names, those in its registry, and, in the middle of a command, those that
have been made and not been kept yet, or been replaced and not been given up yet.  The
last are `L` in `Tidy`.

A command first makes handles, in one forest, and then keeps them under names, which may
push out others.  Whatever it does, the trees of handles that are there before and after
have not changed; this is the second half of `Went`, and it goes along with the first
because only an operation that knows all handles of its forest is bound to respect them.
-/
import SharedForest.Proofs.Registry
import SharedForest.Session.Command

set_option autoImplicit false

namespace SharedForest

open Alarmed

variable {γ K Q V T α ω : Type}

/-! ## Names -/

namespace Names

variable {n : Names α} {a : α}

/-- No name is used twice. -/
def Distinct (n : Names α) : Prop := (n.pairs.map (·.1)).Nodup

theorem distinct_erase (h : n.Distinct) (name : String) : (n.erase name).Distinct :=
  List.Nodup.sublist (List.Sublist.map _ List.filter_sublist) h

theorem distinct_put (h : n.Distinct) (name : String) (a : α) : (n.put name a).Distinct := by
  refine List.nodup_cons.2 ⟨?_, distinct_erase h name⟩
  intro hmem
  obtain ⟨x, hx, heq⟩ := List.mem_map.1 hmem
  have hne := (List.mem_filter.1 hx).2
  rw [heq] at hne
  simp at hne

/-- What is erased goes out. -/
theorem all_erase (h : n.Distinct) (name : String) :
    ((n.erase name).all : Multiset α) + ((n.get? name).toList : Multiset α) = n.all :=
  values_filter h name

/-- What is put comes in, and what is pushed out goes out. -/
theorem all_put (h : n.Distinct) (name : String) (a : α) :
    ((n.put name a).all : Multiset α) + ((n.get? name).toList : Multiset α)
      = (n.all : Multiset α) + {a} := by
  rw [← all_erase h name, put, all, List.map_cons, ← Multiset.cons_coe, ← Multiset.singleton_add,
    all]
  abel

end Names

namespace Session

/-! ## Alarms -/

instance : Alarmed (Session K V T) := ⟨fun s => ∃ f ∈ s.forests, Rung f⟩

/-- An alarm of the forest that is put in place of another is one of the session. -/
theorem rung_set {s : Session K V T} {n : Nat} {f f' : Forest K V T}
    (hf : s.forests[n]? = some f) (h : Rung f') :
    Rung { s with forests := s.forests.setIfInBounds n f' } := by
  have hn : n < s.forests.size := (Array.getElem?_eq_some_iff.1 hf).1
  exact ⟨f', Array.mem_iff_getElem.2 ⟨n, by simpa using hn, by simp⟩, h⟩

/-- Where no alarm was heard before, none is heard unless that forest has one. -/
theorem not_rung_set {s : Session K V T} {n : Nat} {f' : Forest K V T} (h : ¬ Rung s)
    (h' : ¬ Rung f') : ¬ Rung { s with forests := s.forests.setIfInBounds n f' } := by
  rintro ⟨g, hg, hrung⟩
  rcases Array.mem_or_eq_of_mem_setIfInBounds hg with hg | rfl
  · exact h ⟨g, hg, hrung⟩
  · exact h' hrung

instance lasting_onForest {n : Nat} {action : ForestM K V T α} [h : Lasting action] :
    Lasting (onForest n action) := by
  constructor
  rintro s ⟨g, hg, hrung⟩
  unfold onForest
  cases hf : s.forests[n]? with
  | none => exact ⟨g, hg, hrung⟩
  | some f =>
    obtain ⟨m, hm, rfl⟩ := Array.mem_iff_getElem.1 hg
    -- Either the forest that rings is the one that is acted on, or it is left alone.
    have hset : ∀ f', (Rung f → Rung f') →
        ∃ g ∈ s.forests.setIfInBounds n f', Rung g := by
      intro f' hf'
      by_cases hmn : n = m
      · subst hmn
        obtain rfl : s.forests[n] = f := by simpa [hm] using hf
        exact rung_set hf (hf' hrung)
      · exact ⟨s.forests[m], Array.mem_iff_getElem.2
          ⟨m, by simpa using hm, Array.getElem_setIfInBounds_ne _ hmn⟩, hrung⟩
    have hlast := h.rung f
    dsimp only
    cases hr : action f with
    | ok a f' =>
      rw [hr] at hlast
      exact hset f' hlast
    | error e f' =>
      rw [hr] at hlast
      exact hset f' hlast

instance lasting_onView (n : Nat) (look : Forest K V T → Except Fault α) :
    Lasting (onView n look) := by
  constructor
  intro s hs
  unfold onView
  split
  · exact hs
  · split <;> exact hs

instance lasting_tree (name : String) : Lasting (tree (K := K) (V := V) (T := T) name) := by
  refine .bind .get fun s => ?_
  cases s.trees.get? name with
  | none => exact .throw _
  | some t => exact .pure _

instance lasting_walk (name : String) : Lasting (walk (K := K) (V := V) (T := T) name) := by
  refine .bind .get fun s => ?_
  cases s.walks.get? name with
  | none => exact .throw _
  | some w => exact .pure _

instance lasting_discard (t : Snapshot) : Lasting (discard (K := K) (V := V) (T := T) t) :=
  lasting_onForest

instance lasting_keep (name : String) (t : Snapshot) :
    Lasting (keep (K := K) (V := V) (T := T) name t) := by
  refine .bind .get fun s => .bind (.modify fun _ h => h) fun _ => ?_
  cases s.trees.get? name with
  | none => exact .pure _
  | some old => exact lasting_discard old

instance lasting_store (note : Forest K V T → Snapshot → Except Fault ω) (dest : String)
    (t : Snapshot) : Lasting (store note dest t) := by
  unfold store
  infer_instance

/-! ## Tidy sessions -/

/-- Handles that are held under names. -/
def named (s : Session K V T) : Multiset Snapshot :=
  (s.trees.all : Multiset Snapshot) + (s.walks.all.map (·.tree) : List Snapshot)

/-- The books of every forest are right, with `L` held besides what is under names. -/
structure Tidy (aug : Augment K V T) (cs : List Config) (P : NodeTree K V T → Prop)
    (L : Multiset Snapshot) (s : Session K V T) : Prop where
  size : s.forests.size = cs.length
  trees : s.trees.Distinct
  walks : s.walks.Distinct
  /-- No handle is of a forest that is not there. -/
  known : ∀ t ∈ s.named + L, t.forest < cs.length
  tended : ∀ (n : Nat) (f : Forest K V T) (c : Config),
    s.forests[n]? = some f → cs[n]? = some c →
      f.id = n ∧ f.augment = aug ∧ f.Tended c P (s.named + L)

/-- The handle is held somewhere, or among `L`. -/
def Has (s : Session K V T) (L : Multiset Snapshot) (t : Snapshot) : Prop :=
  ∃ f, s.forests[t.forest]? = some f ∧ t ∈ f.held (s.named + L)

/-- The tree of the handle is `p`, slot for slot. -/
def Shows (s : Session K V T) (t : Snapshot) (p : Placed (Node K V T)) : Prop :=
  ∃ f, s.forests[t.forest]? = some f ∧ p.root = t.root ∧ f.store.Unfolds p

/-- The session has gone on from `s₀`, is tidy, and what is still held has not changed. -/
structure Went (aug : Augment K V T) (cs : List Config) (P : NodeTree K V T → Prop)
    (s₀ : Session K V T) (L : Multiset Snapshot) (s : Session K V T) : Prop where
  tidy : s.Tidy aug cs P L
  kept : ∀ t p, s₀.Has 0 t → s.Has L t → s₀.Shows t p → s.Shows t p

/-- The registry of a forest; empty for one that is not there. -/
def shelf (s : Session K V T) (n : Nat) : List (UInt64 × Snapshot) :=
  ((s.forests[n]?).map (·.registry)).getD []

variable {aug : Augment K V T} {cs : List Config} {c : Config} {P : NodeTree K V T → Prop}
  {s₀ s s' : Session K V T} {L L' : Multiset Snapshot} {t : Snapshot} {n : Nat}
  {f f' : Forest K V T}

theorem Went.refl (h : s.Tidy aug cs P 0) : Went aug cs P s 0 s := ⟨h, fun _ _ _ _ h => h⟩

/-- Less may be known of the trees. -/
theorem Tidy.weaken {P' : NodeTree K V T → Prop} (h : s.Tidy aug cs P L) (hP : ∀ t, P t → P' t) :
    s.Tidy aug cs P' L := by
  refine ⟨h.size, h.trees, h.walks, h.known, fun n f c hf hc => ?_⟩
  obtain ⟨hid, haug, hshelved, F, hF, hsound, hall⟩ := h.tended n f c hf hc
  exact ⟨hid, haug, hshelved, F, hF, hsound, fun p hp => hP _ (hall p hp)⟩

/-- A forest that is there was made with some options. -/
theorem Tidy.exists_config (h : s.Tidy aug cs P L) (hf : s.forests[n]? = some f) :
    ∃ c, cs[n]? = some c := by
  have hn : n < s.forests.size := (Array.getElem?_eq_some_iff.1 hf).1
  rw [h.size] at hn
  exact ⟨cs[n], List.getElem?_eq_getElem hn⟩

/-- There is a forest for each of the options. -/
theorem Tidy.forest_of_lt (h : s.Tidy aug cs P L) (hn : n < cs.length) :
    ∃ f, s.forests[n]? = some f := by
  rw [← h.size] at hn
  exact ⟨s.forests[n], Array.getElem?_eq_getElem hn⟩

/-- The forest of a handle that is held is there. -/
theorem Tidy.exists_forest (h : s.Tidy aug cs P L) (ht : t ∈ s.named + L) :
    ∃ f, s.forests[t.forest]? = some f :=
  h.forest_of_lt (h.known t ht)

/-- Handles that change hands without any forest being touched. -/
theorem Went.shuffle (h : Went aug cs P s₀ L s) (hforests : s'.forests = s.forests)
    (hnamed : s'.named + L' = s.named + L) (htrees : s'.trees.Distinct)
    (hwalks : s'.walks.Distinct) : Went aug cs P s₀ L' s' := by
  refine ⟨⟨?_, htrees, hwalks, ?_, ?_⟩, ?_⟩
  · rw [hforests]
    exact h.tidy.size
  · rw [hnamed]
    exact h.tidy.known
  · rw [hforests, hnamed]
    exact h.tidy.tended
  · intro t p h₀ ht hp
    rw [Has, hforests, hnamed] at ht
    rw [Shows, hforests]
    exact h.kept t p h₀ ht hp

/-- One forest goes on, and what is gained or lost is of that forest. -/
theorem Went.onward (h : Went aug cs P s₀ L s) (hf : s.forests[n]? = some f)
    (hc : cs[n]? = some c) (hon : f.Onward c P (s.named + L) (s.named + L') f')
    (hown : ∀ t ∈ L', t.forest < cs.length)
    (hother : ∀ g : Forest K V T, g.id ≠ n → g.held (s.named + L') = g.held (s.named + L))
    (hback : ∀ t, s₀.Has 0 t → Has { s with forests := s.forests.setIfInBounds n f' } L' t →
      s.Has L t) :
    Went aug cs P s₀ L' { s with forests := s.forests.setIfInBounds n f' } := by
  obtain ⟨hid, haug, htended⟩ := h.tidy.tended n f c hf hc
  have hn : n < s.forests.size := (Array.getElem?_eq_some_iff.1 hf).1
  have hself : (s.forests.setIfInBounds n f')[n]? = some f' := by
    rw [Array.getElem?_setIfInBounds_self_of_lt hn]
  refine ⟨⟨?_, h.tidy.trees, h.tidy.walks, ?_, ?_⟩, ?_⟩
  · rw [Array.size_setIfInBounds]
    exact h.tidy.size
  · intro t ht
    rcases Multiset.mem_add.1 ht with ht | ht
    · exact h.tidy.known t (Multiset.mem_add.2 (.inl ht))
    · exact hown t ht
  -- The forest that was acted on has new books, the others have the old ones.
  · intro m g d hg hd
    by_cases hmn : n = m
    · subst hmn
      obtain rfl : f' = g := by simpa [hself] using hg
      obtain rfl : c = d := by simpa [hc] using hd
      exact ⟨hon.id.trans hid, hon.augment.trans haug, hon.tended⟩
    · rw [Array.getElem?_setIfInBounds_ne hmn] at hg
      obtain ⟨hgid, hgaug, hgtended⟩ := h.tidy.tended m g d hg hd
      refine ⟨hgid, hgaug, hgtended.shelved, ?_⟩
      have hbacks := hgtended.backs
      rwa [← hother g (by rw [hgid]; exact Ne.symm hmn)] at hbacks
  -- What is held now was held in the middle, so its tree came that far, and the step kept it.
  · intro t p h₀ ht hp
    obtain ⟨g, hg, hroot, hunf⟩ := h.kept t p h₀ (hback t h₀ ht) hp
    by_cases htn : n = t.forest
    · subst htn
      obtain rfl : f = g := by simpa [hf] using hg
      obtain ⟨g, hg, hmem⟩ := hback t h₀ ht
      obtain rfl : f = g := by simpa [hf] using hg
      obtain ⟨g, hg', hmem'⟩ := ht
      obtain rfl : f' = g := by simpa [hself] using hg'
      exact ⟨f', hself, hroot, hon.keeps t hmem hmem' p hroot hunf⟩
    · exact ⟨g, by rw [Array.getElem?_setIfInBounds_ne htn]; exact hg, hroot, hunf⟩

/-- One forest goes on, and the handles in `L` are new. -/
theorem Tidy.onward (h : s.Tidy aug cs P 0) (hf : s.forests[n]? = some f) (hc : cs[n]? = some c)
    (hon : f.Onward c P s.named (s.named + L) f') (hown : ∀ t ∈ L, t.forest = f.id) :
    Went aug cs P s L { s with forests := s.forests.setIfInBounds n f' } := by
  obtain ⟨hid, -, -⟩ := h.tended n f c hf hc
  refine (Went.refl h).onward hf hc (by rwa [add_zero]) ?_ ?_ fun t h₀ _ => h₀
  · intro t ht
    rw [hown t ht, hid, ← h.size]
    exact (Array.getElem?_eq_some_iff.1 hf).1
  · intro g hg
    rw [add_zero]
    exact Forest.held_add_foreign fun t ht => by rw [hown t ht, hid]; exact Ne.symm hg

theorem onForest_of_none {m : ForestM K V T α} (hf : s.forests[n]? = none) :
    onForest n m s = .error (.noForest n) s := by
  rw [onForest, hf]

theorem onForest_of_ok {m : ForestM K V T α} {a : α} (hf : s.forests[n]? = some f)
    (hrun : m f = .ok a f') :
    onForest n m s = .ok a { s with forests := s.forests.setIfInBounds n f' } := by
  rw [onForest, hf]
  dsimp only
  rw [hrun]

theorem onForest_of_error {m : ForestM K V T α} {e : Failure} (hf : s.forests[n]? = some f)
    (hrun : m f = .error e f') :
    onForest n m s = .error (.failed e) { s with forests := s.forests.setIfInBounds n f' } := by
  rw [onForest, hf]
  dsimp only
  rw [hrun]

/-- An action on one forest that may make handles, with all that is known of a failure. -/
theorem onForest_ends {m : ForestM K V T α} {L : α → Multiset Snapshot}
    {X : α → Forest K V T → Forest K V T → Prop} {Y : Failure → Forest K V T → Forest K V T → Prop}
    (h : s.Tidy aug cs P 0)
    (hm : ∀ f c, s.forests[n]? = some f → cs[n]? = some c → f.id = n → f.augment = aug →
      f.Tended c P s.named → Ends (m f)
        (fun a f' => (∀ t ∈ L a, t.forest = f.id) ∧ f.Onward c P s.named (s.named + L a) f' ∧
          X a f f')
        (fun e f' => f.Onward c P s.named s.named f' ∧ Y e f f')) :
    Ends (onForest n m s)
      (fun a s' => ∃ f f', s.forests[n]? = some f ∧ X a f f' ∧
        s' = { s with forests := s.forests.setIfInBounds n f' } ∧ Went aug cs P s (L a) s')
      (fun e s' => (e = .noForest n ∧ s' = s ∧ s.forests[n]? = none ∨ ∃ e' f f', e = .failed e' ∧
        s.forests[n]? = some f ∧ Y e' f f' ∧
        s' = { s with forests := s.forests.setIfInBounds n f' }) ∧ Went aug cs P s 0 s') := by
  rw [onForest]
  cases hf : s.forests[n]? with
  | none => exact .error ⟨.inl ⟨rfl, rfl, rfl⟩, .refl h⟩
  | some f =>
    obtain ⟨c, hc⟩ := h.exists_config hf
    obtain ⟨hid, haug, htended⟩ := h.tended n f c hf hc
    rw [add_zero] at htended
    have hends := hm f c hf hc hid haug htended
    dsimp only
    cases hr : m f with
    | ok a f' =>
      rw [hr] at hends
      intro hquiet
      obtain ⟨hown, hon, hX⟩ := hends fun hrung => hquiet (rung_set hf hrung)
      exact ⟨f, f', rfl, hX, rfl, h.onward hf hc hon hown⟩
    | error e f' =>
      rw [hr] at hends
      intro hquiet
      obtain ⟨hon, hY⟩ := hends fun hrung => hquiet (rung_set hf hrung)
      exact ⟨.inr ⟨e, f, f', rfl, rfl, hY, rfl⟩, h.onward hf hc (by rwa [add_zero])
        fun t ht => absurd ht (Multiset.notMem_zero t)⟩

/-- An action on one forest that may make handles. -/
theorem onForest_spec {m : ForestM K V T α} {L : α → Multiset Snapshot}
    {X : α → Forest K V T → Forest K V T → Prop} {Y : Forest K V T → Forest K V T → Prop}
    (h : s.Tidy aug cs P 0)
    (hm : ∀ f c, s.forests[n]? = some f → f.id = n → f.augment = aug → f.Tended c P s.named →
      Ends (m f)
        (fun a f' => (∀ t ∈ L a, t.forest = f.id) ∧ f.Onward c P s.named (s.named + L a) f' ∧
          X a f f')
        (fun _ f' => f.Onward c P s.named s.named f' ∧ Y f f')) :
    Ends (onForest n m s)
      (fun a s' => ∃ f f', s.forests[n]? = some f ∧ X a f f' ∧
        s' = { s with forests := s.forests.setIfInBounds n f' } ∧ Went aug cs P s (L a) s')
      (fun _ s' => (s' = s ∨ ∃ f f', s.forests[n]? = some f ∧ Y f f' ∧
        s' = { s with forests := s.forests.setIfInBounds n f' }) ∧ Went aug cs P s 0 s') := by
  refine (onForest_ends (Y := fun _ => Y) h fun f c hf _ => hm f c hf).mono (fun _ _ hq => hq) ?_
  rintro e s' ⟨⟨-, rfl, -⟩ | ⟨e', f, f', -, hf, hY, rfl⟩, hwent⟩
  · exact ⟨.inl rfl, hwent⟩
  · exact ⟨.inr ⟨f, f', hf, hY, rfl⟩, hwent⟩

/-- More that is held is held. -/
theorem Has.mono (h : s'.Has L t) (hreg : ∀ f', s'.forests[t.forest]? = some f' →
    ∃ f, s.forests[t.forest]? = some f ∧ f.id = f'.id ∧ f.registry = f'.registry)
    (hle : s'.named + L ≤ s.named + L') : s.Has L' t := by
  obtain ⟨f', hf', hmem⟩ := h
  obtain ⟨f, hf, hid, hregistry⟩ := hreg f' hf'
  refine ⟨f, hf, ?_⟩
  rw [Forest.held_congr hid.symm hregistry.symm] at hmem
  rcases Forest.mem_held.1 hmem with ⟨ht, hown⟩ | ht
  · exact Forest.mem_held.2 (.inl ⟨Multiset.mem_of_le hle ht, hown⟩)
  · exact Forest.mem_held.2 (.inr ht)

theorem shelf_set (hf : s.forests[n]? = some f) (f' : Forest K V T) (m : Nat) :
    shelf { s with forests := s.forests.setIfInBounds n f' } m
      = if m = n then f'.registry else s.shelf m := by
  have hn : n < s.forests.size := (Array.getElem?_eq_some_iff.1 hf).1
  rw [shelf]
  by_cases hmn : m = n
  · rw [if_pos hmn, hmn, Array.getElem?_setIfInBounds_self_of_lt hn]
    rfl
  · rw [if_neg hmn, Array.getElem?_setIfInBounds_ne (Ne.symm hmn)]
    rfl

theorem shelf_of_forest (hf : s.forests[n]? = some f) : s.shelf n = f.registry := by
  rw [shelf, hf]
  rfl

theorem shelf_set_of_eq (hf : s.forests[n]? = some f) (hreg : f'.registry = f.registry) :
    shelf { s with forests := s.forests.setIfInBounds n f' } = s.shelf := by
  funext m
  rw [shelf_set hf, hreg]
  by_cases hmn : m = n
  · rw [if_pos hmn, hmn, shelf_of_forest hf]
  · rw [if_neg hmn]

/-- A handle that is given up. -/
theorem discard_spec (h : Went aug cs P s₀ (L + {t}) s) :
    ∃ s', discard t s = .ok () s' ∧ Went aug cs P s₀ L s' ∧ s'.trees = s.trees ∧
      s'.walks = s.walks ∧ s'.shelf = s.shelf := by
  obtain ⟨f, hf⟩ := h.tidy.exists_forest (t := t) (by simp)
  obtain ⟨c, hc⟩ := h.tidy.exists_config hf
  obtain ⟨hid, haug, htended⟩ := h.tidy.tended t.forest f c hf hc
  rw [← add_assoc] at htended
  obtain ⟨f', hrun, hreg, hon⟩ := htended.drop hid.symm
  have hn : t.forest < s.forests.size := (Array.getElem?_eq_some_iff.1 hf).1
  refine ⟨{ s with forests := s.forests.setIfInBounds t.forest f' }, ?_,
    h.onward hf hc (by rwa [← add_assoc]) ?_ ?_ ?_, rfl, rfl, shelf_set_of_eq hf hreg⟩
  · rw [discard, onForest_of_ok hf hrun]
  · intro u hu
    exact h.tidy.known u (by simp [hu])
  · intro g hg
    rw [← add_assoc]
    exact (Forest.held_add_foreign (by simpa using Ne.symm hg)).symm
  · intro u h₀ hu
    refine hu.mono ?_ (add_le_add_right (Multiset.le_add_right _ _) _)
    intro g hg
    by_cases htu : t.forest = u.forest
    · rw [← htu] at hg ⊢
      obtain rfl : f' = g := by
        rw [Array.getElem?_setIfInBounds_self_of_lt hn] at hg
        simpa using hg
      exact ⟨f, hf, hon.id.symm, hreg.symm⟩
    · rw [Array.getElem?_setIfInBounds_ne htu] at hg
      exact ⟨g, hg, rfl, rfl⟩

/-- A handle that is kept under a name. -/
theorem keep_spec (h : Went aug cs P s₀ (L + {t}) s) (dest : String) :
    ∃ s', keep dest t s = .ok () s' ∧ Went aug cs P s₀ L s' ∧ s'.trees = s.trees.put dest t ∧
      s'.walks = s.walks ∧ s'.shelf = s.shelf := by
  set s₁ : Session K V T := { s with trees := s.trees.put dest t } with hs₁
  have hall := Names.all_put h.tidy.trees dest t
  have hnamed : s₁.named + (L + ((s.trees.get? dest).toList : Multiset Snapshot))
      = s.named + (L + {t}) := by
    rw [named, named]
    calc _ = ((s.trees.put dest t).all : Multiset Snapshot)
          + ((s.trees.get? dest).toList : Multiset Snapshot)
          + ((s.walks.all.map (·.tree) : List Snapshot) + L) := by rw [hs₁]; abel
      _ = _ := by rw [hall]; abel
  have h₁ : Went aug cs P s₀ (L + ((s.trees.get? dest).toList : Multiset Snapshot)) s₁ :=
    h.shuffle rfl hnamed (Names.distinct_put h.tidy.trees dest t) h.tidy.walks
  rw [keep, bind_get, bind_modify]
  cases hold : s.trees.get? dest with
  | none =>
    rw [hold] at h₁
    exact ⟨s₁, rfl, by simpa using h₁, rfl, rfl, rfl⟩
  | some old =>
    rw [hold] at h₁
    obtain ⟨s₂, hrun, h₂, htrees, hwalks, hshelf⟩ := discard_spec h₁
    exact ⟨s₂, hrun, h₂, htrees, hwalks, hshelf⟩

/-- The same where nothing is noted. -/
theorem store_spec (h : Went aug cs P s₀ (L + {t}) s) (dest : String) :
    ∃ s', store (fun _ _ => .ok ()) dest t s = .ok () s' ∧ Went aug cs P s₀ L s' ∧
      s'.trees = s.trees.put dest t ∧ s'.walks = s.walks ∧ s'.shelf = s.shelf := by
  obtain ⟨s', hrun, h', htrees, hwalks, hshelf⟩ := keep_spec h dest
  refine ⟨s', ?_, h', htrees, hwalks, hshelf⟩
  have hlt := h.tidy.known t (by simp)
  rw [← h'.tidy.size] at hlt
  rw [store, bind_of_ok hrun, onView, Array.getElem?_eq_getElem hlt]

/-! ## All handles -/

/-- Of snapshots in lists that belong to one forest each, those of forest `n` are in its list. -/
theorem filter_flatMap {forests : List (Forest K V T)} {m : Nat}
    (h : ∀ (i : Nat) (f : Forest K V T), forests[i]? = some f →
      ∀ t ∈ f.registry.map (·.2), t.forest = m + i) (n : Nat) :
    (forests.flatMap fun f => f.registry.map (·.2)).filter (·.forest = m + n)
      = ((forests[n]?).map fun f => f.registry.map (·.2)).getD [] := by
  induction forests generalizing m n with
  | nil => rfl
  | cons f forests ih =>
    have hrest : ∀ (i : Nat) (g : Forest K V T), forests[i]? = some g →
        ∀ t ∈ g.registry.map (·.2), t.forest = m + 1 + i := by
      intro i g hg t ht
      rw [h (i + 1) g hg t ht]
      omega
    have hhead : ∀ t ∈ f.registry.map (·.2), t.forest = m := h 0 f rfl
    rw [List.flatMap_cons, List.filter_append]
    cases n with
    | zero =>
      -- It is the first forest that is asked for, and the snapshots of the rest have later numbers.
      have hnone : (forests.flatMap fun f => f.registry.map (·.2)).filter (·.forest = m + 0)
          = [] := by
        refine List.filter_eq_nil_iff.2 fun t ht => ?_
        obtain ⟨g, hg, htg⟩ := List.mem_flatMap.1 ht
        obtain ⟨i, hi⟩ := List.mem_iff_getElem?.1 hg
        have := hrest i g hi t htg
        simp only [decide_eq_true_eq]
        omega
      rw [hnone, List.append_nil, List.filter_eq_self.2 fun t ht => by simp [hhead t ht]]
      rfl
    | succ n =>
      have hnone : (f.registry.map (·.2)).filter (·.forest = m + (n + 1)) = [] := by
        refine List.filter_eq_nil_iff.2 fun t ht => ?_
        rw [hhead t ht, decide_eq_true_eq]
        omega
      have hshift : m + (n + 1) = m + 1 + n := by omega
      rw [hnone, List.nil_append, hshift, ih hrest n]
      rfl

/-- What is held of a forest is what there is of it among all handles. -/
theorem Tidy.held_eq (h : s.Tidy aug cs P 0) (hf : s.forests[n]? = some f) :
    f.held s.named = (s.handles.filter (·.forest = n) : List Snapshot) := by
  obtain ⟨c, hc⟩ := h.exists_config hf
  obtain ⟨hid, -, -⟩ := h.tended n f c hf hc
  have hown : ∀ (i : Nat) (g : Forest K V T), s.forests.toList[i]? = some g →
      ∀ t ∈ g.registry.map (·.2), t.forest = 0 + i := by
    intro i g hg t ht
    rw [Array.getElem?_toList] at hg
    obtain ⟨d, hd⟩ := h.exists_config hg
    obtain ⟨hgid, -, htended⟩ := h.tended i g d hg hd
    obtain ⟨e, he, rfl⟩ := List.mem_map.1 ht
    rw [htended.shelved.own e he, hgid, Nat.zero_add]
  have hflat := filter_flatMap hown n
  rw [Array.getElem?_toList, hf, Nat.zero_add] at hflat
  rw [Forest.held, Forest.registered, hid, handles, List.filter_append, hflat, named,
    Multiset.coe_add, Multiset.filter_coe, Multiset.coe_add]
  rfl

/-- The books of a forest by handles: one held tree, with property `P`, for each handle of it. -/
theorem Tidy.exists_books (h : s.Tidy aug cs P 0) (hf : s.forests[n]? = some f) :
    f.id = n ∧ f.augment = aug ∧ ∃ (c : Config) (F : Multiset (Placed (Node K V T))),
      cs[n]? = some c ∧ f.store.Sound c F ∧ (∀ p ∈ F, P p.bare) ∧
        F.map Tree.root = ((s.handles.filter (·.forest = n) : List Snapshot) :
          Multiset Snapshot).map Snapshot.root := by
  obtain ⟨c, hc⟩ := h.exists_config hf
  obtain ⟨hid, haug, htended⟩ := h.tended n f c hf hc
  obtain ⟨F, hF, hsound, hall⟩ := htended.backs
  rw [add_zero, h.held_eq hf] at hF
  exact ⟨hid, haug, c, F, hc, hsound, hall, hF⟩

end Session

end SharedForest
