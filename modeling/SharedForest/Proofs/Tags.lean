/-
Tags and registries.

The tag of a handle is the number of snapshots that its forest had derived before it.  A tag that is
below the count at some moment of a run is not given out again, so a handle that carries it later
has been held all the way since then (`held_since`).  This is all that is needed to tell trees by
their tags: there is no need to know where the handle has been, and slots that are used again in the
meantime do not matter, since what is held is kept.  Tags are words, and the numbers they stand for
are told apart only as long as fewer than `2 ^ 64` snapshots are derived in a forest.

A registry is read off the commands of a run: what stands under a tag is the handle that was last
registered under it, if it has not been taken out since (`Enrolled`).  It does not matter that another
handle with the same tag may have come in its place, because that is a handle on the same tree.
-/
import SharedForest.Proofs.Accounts

set_option autoImplicit false

namespace SharedForest

open Alarmed

variable {γ K Q V T : Type}

namespace Session

variable {aug : Augment K V T} {cs : List Config} {P : NodeTree K V T → Prop}
  {s s₀ s' : Session K V T} {t u : Snapshot} {n : Nat} {x : Holder} {c : Command K V Q}

/-! ## Tags in a run -/

theorem mem_handles_of_holding (ht : s.holding x = some t) : t ∈ s.handles := by
  rw [handles, List.mem_append, List.mem_append]
  cases x with
  | tree name =>
    obtain ⟨l, r, hpairs, -⟩ := List.lookup_eq_some_iff.1 ht
    rw [Names.all, hpairs]
    simp
  | walk name =>
    obtain ⟨w, hw, rfl⟩ := Option.map_eq_some_iff.1 ht
    obtain ⟨l, r, hpairs, -⟩ := List.lookup_eq_some_iff.1 hw
    rw [Names.all, Names.all, hpairs]
    simp
  | registered n v =>
    cases hf : s.forests[n]? with
    | none =>
      rw [holding_of_no_forest hf] at ht
      cases ht
    | some f =>
      rw [holding, shelf_of_forest hf] at ht
      refine .inr (List.mem_flatMap.2 ⟨f, ?_, Forest.mem_of_lookup ht⟩)
      exact Array.mem_toList_iff.2 (Array.mem_of_getElem? hf)

/-- Every tag is below the count of its forest, and tells the handle in it. -/
structure Tagged (s : Session K V T) : Prop where
  below : ∀ t ∈ s.handles, t.version.toNat < s.derivedIn t.forest
  unique : ∀ t ∈ s.handles, ∀ u ∈ s.handles, u.forest = t.forest → u.version = t.version → u = t

theorem Issues.count {made : List Snapshot} (h : Issues s n made s') :
    s'.derivedIn n = s.derivedIn n + made.length := by
  rw [h.derived]
  exact if_pos rfl

theorem Issues.le {made : List Snapshot} (h : Issues s n made s') (m : Nat) :
    s.derivedIn m ≤ s'.derivedIn m := by
  rw [h.derived]
  dsimp only
  split
  · rename_i hm
    rw [hm]
    omega
  · exact Nat.le_refl _

/-- A handle that has been made carries one of the numbers that have been used up. -/
theorem Issues.tag {made : List Snapshot} (h : Issues s n made s') (ht : t ∈ made)
    (hfew : s'.derivedIn n ≤ 2 ^ 64) :
    s.derivedIn n ≤ t.version.toNat ∧ t.version.toNat < s'.derivedIn n := by
  rw [h.count] at hfew ⊢
  exact Forest.tag_bounds h.tags hfew ht

/-- New handles are told apart by their tags. -/
theorem Issues.nodup {made : List Snapshot} (h : Issues s n made s')
    (hfew : s'.derivedIn n ≤ 2 ^ 64) : (made.map (·.version)).Nodup := by
  have hcount := h.count
  rw [h.tags]
  refine List.Nodup.map_on (fun a ha b hb hab => ?_) List.nodup_range'
  have ha' := (List.mem_range'_1.1 ha).2
  have hb' := (List.mem_range'_1.1 hb).2
  rw [← UInt64.toNat_ofNat_of_lt' (show a < 2 ^ 64 by omega), hab,
    UInt64.toNat_ofNat_of_lt' (show b < 2 ^ 64 by omega)]

/-- A handle after a command has been held before, or it is new and its tag is. -/
theorem Issues.cases {made : List Snapshot} (h : Issues s n made s')
    (htidy : s'.Tidy aug cs P 0) (hfew : ∀ m, s'.derivedIn m ≤ 2 ^ 64) (ht : t ∈ s'.handles) :
    t ∈ s.handles ∨ t ∈ made ∧ t.forest = n ∧ s.derivedIn n ≤ t.version.toNat ∧
      t.version.toNat < s'.derivedIn n := by
  obtain ⟨x, hx⟩ := exists_holder htidy ht
  rcases h.held x t hx with ⟨y, hy⟩ | hmade
  · exact .inl (mem_handles_of_holding hy)
  · exact .inr ⟨hmade, h.own t hmade, h.tag hmade (hfew n)⟩

theorem Tagged.issues {made : List Snapshot} (h : s.Tagged) (hissues : Issues s n made s')
    (htidy : s'.Tidy aug cs P 0) (hfew : ∀ m, s'.derivedIn m ≤ 2 ^ 64) : s'.Tagged := by
  constructor
  · intro t ht
    rcases hissues.cases htidy hfew ht with hold | ⟨-, rfl, -, hlt⟩
    · exact (h.below t hold).trans_le (hissues.le t.forest)
    · exact hlt
  · intro t ht u hu hforest hversion
    rcases hissues.cases htidy hfew ht with hold | ⟨hmade, hn, hle, -⟩ <;>
      rcases hissues.cases htidy hfew hu with hold' | ⟨hmade', hn', hle', -⟩
    · exact h.unique t hold u hold' hforest hversion
    -- What is new carries a number that nothing has carried before.
    · have hlt := h.below t hold
      rw [← hforest, hn', ← hversion] at hlt
      omega
    · have hlt := h.below u hold'
      rw [hforest, hn, hversion] at hlt
      omega
    · exact List.inj_on_of_nodup_map (hissues.nodup (hfew n)) hmade' hmade hversion

section

variable [Ord K] [Ord Q] [KeyView K Q] {sort : List (K × V) → List (K × V)}

theorem execAllBy_append (pre post : List (Command K V Q)) (s : Session K V T) :
    execAllBy sort (pre ++ post) s = execAllBy sort post (execAllBy sort pre s) := by
  induction pre generalizing s with
  | nil => rfl
  | cons c pre ih => rw [List.cons_append, execAllBy_cons, execAllBy_cons, ih]

/-- The first step of a run in which no count wraps. -/
theorem first_step (c : Command K V Q) (cmds : List (Command K V Q))
    (h : s.Tidy aug cs (fun _ => True) 0)
    (hquiet : ¬ Rung (execAllBy sort cmds (next sort c s))) :
    Went aug cs (fun _ => True) s 0 (next sort c s) ∧ Accounted s c (next sort c s) := by
  have hstep : ¬ Rung (next sort c s) := fun hrung => hquiet (rung_execAllBy cmds hrung)
  exact ⟨(after_next (closed_true aug) h c hstep).went, accounted_next h c hstep⟩

/-- Counts never go down in a run. -/
theorem derivedIn_le (cmds : List (Command K V Q)) (h : s.Tidy aug cs (fun _ => True) 0)
    (hquiet : ¬ Rung (execAllBy sort cmds s)) (m : Nat) :
    s.derivedIn m ≤ (execAllBy sort cmds s).derivedIn m := by
  induction cmds generalizing s with
  | nil => exact Nat.le_refl _
  | cons c cmds ih =>
    rw [execAllBy_cons] at hquiet ⊢
    obtain ⟨hwent, ⟨n, made, hissues⟩, -⟩ := first_step c cmds h hquiet
    exact (hissues.le m).trans (ih hwent.tidy hquiet)

/-- In a run from a session where tags tell handles they always do. -/
theorem tagged_execAllBy (cmds : List (Command K V Q)) (h : s.Tidy aug cs (fun _ => True) 0)
    (hquiet : ¬ Rung (execAllBy sort cmds s))
    (hfew : ∀ m, (execAllBy sort cmds s).derivedIn m ≤ 2 ^ 64) (htagged : s.Tagged) :
    (execAllBy sort cmds s).Tagged := by
  induction cmds generalizing s with
  | nil => exact htagged
  | cons c cmds ih =>
    rw [execAllBy_cons] at hquiet hfew ⊢
    obtain ⟨hwent, ⟨n, made, hissues⟩, -⟩ := first_step c cmds h hquiet
    have hle := derivedIn_le cmds hwent.tidy hquiet
    exact ih hwent.tidy hquiet hfew
      (htagged.issues hissues hwent.tidy fun m => (hle m).trans (hfew m))

/-- A handle whose tag is below the count at the start of a run has been held ever since, and shows
what it showed. -/
theorem held_since (cmds : List (Command K V Q)) (h : s.Tidy aug cs (fun _ => True) 0)
    (hquiet : ¬ Rung (execAllBy sort cmds s))
    (hfew : ∀ m, (execAllBy sort cmds s).derivedIn m ≤ 2 ^ 64)
    (ht : t ∈ (execAllBy sort cmds s).handles) (hold : t.version.toNat < s.derivedIn t.forest) :
    t ∈ s.handles ∧ ∀ p, s.Shows t p → (execAllBy sort cmds s).Shows t p := by
  induction cmds generalizing s with
  | nil => exact ⟨ht, fun p hp => hp⟩
  | cons c cmds ih =>
    rw [execAllBy_cons] at hquiet hfew ht ⊢
    obtain ⟨hwent, ⟨n, made, hissues⟩, -⟩ := first_step c cmds h hquiet
    have hle := derivedIn_le cmds hwent.tidy hquiet
    -- It was held after the first command, and what is held then and carries an old tag was held
    -- before it.
    obtain ⟨hmem, hshown⟩ := ih hwent.tidy hquiet hfew ht (hold.trans_le (hissues.le t.forest))
    rcases hissues.cases hwent.tidy (fun m => (hle m).trans (hfew m)) hmem with
      hmem' | ⟨-, hn, hnew, -⟩
    · exact ⟨hmem', fun p hp => hshown p (hwent.kept t p (has_of_mem_handles h hmem')
        (has_of_mem_handles hwent.tidy hmem) hp)⟩
    · rw [hn] at hold
      omega

/-- A part of a run is a run. -/
theorem run_append (pre post : List (Command K V Q)) (h : s.Tidy aug cs (fun _ => True) 0)
    (hquiet : ¬ Rung (execAllBy sort (pre ++ post) s)) :
    ¬ Rung (execAllBy sort pre s) ∧ (execAllBy sort pre s).Tidy aug cs (fun _ => True) 0 ∧
      ∀ m, (execAllBy sort pre s).derivedIn m ≤ (execAllBy sort (pre ++ post) s).derivedIn m := by
  rw [execAllBy_append] at hquiet ⊢
  have hpre : ¬ Rung (execAllBy sort pre s) := fun hrung => hquiet (rung_execAllBy post hrung)
  have htidy := tidy_execAllBy (closed_true aug) pre h hpre
  exact ⟨hpre, htidy, derivedIn_le post htidy hquiet⟩

/-! ## Registries in a run -/

/-- The run has registered the handle, and has not taken out what is under its tag since. -/
def Enrolled (sort : List (K × V) → List (K × V)) (s₀ : Session K V T)
    (cmds : List (Command K V Q)) (t : Snapshot) : Prop :=
  ∃ pre name post, cmds = pre ++ .register t.forest name :: post ∧
    (execAllBy sort pre s₀).trees.get? name = some t ∧
    ∀ dest, .unregister t.forest t.version dest ∉ post

/-- The command registers the handle. -/
def Enters (s : Session K V T) (c : Command K V Q) (t : Snapshot) : Prop :=
  ∃ name, c = .register t.forest name ∧ s.trees.get? name = some t

/-- The command takes out what is under a tag. -/
def Takes (c : Command K V Q) (n : Nat) (v : UInt64) : Prop := ∃ dest, c = .unregister n v dest

/-- One more command. -/
theorem enrolled_append {cmds : List (Command K V Q)} :
    Enrolled sort s₀ (cmds ++ [c]) t ↔ Enters (execAllBy sort cmds s₀) c t ∨
      Enrolled sort s₀ cmds t ∧ ¬ Takes c t.forest t.version := by
  constructor
  · rintro ⟨pre, name, post, heq, ht, hpost⟩
    rcases List.eq_nil_or_concat post with rfl | ⟨post, d, rfl⟩
    · obtain ⟨rfl, hc⟩ := List.append_inj' heq rfl
      exact .inl ⟨name, List.singleton_inj.1 hc, ht⟩
    · rw [List.concat_eq_append, ← List.cons_append, ← List.append_assoc] at heq
      obtain ⟨rfl, hc⟩ := List.append_inj' heq rfl
      obtain rfl := List.singleton_inj.1 hc
      refine .inr ⟨⟨pre, name, post, rfl, ht, fun dest hmem => hpost dest (by simp [hmem])⟩, ?_⟩
      rintro ⟨dest, rfl⟩
      exact hpost dest (by simp)
  · rintro (⟨name, rfl, ht⟩ | ⟨⟨pre, name, post, rfl, ht, hpost⟩, htakes⟩)
    · exact ⟨cmds, name, [], rfl, ht, by simp⟩
    · refine ⟨pre, name, post ++ [c], by simp, ht, fun dest hmem => ?_⟩
      rcases List.mem_append.1 hmem with hmem | hmem
      · exact hpost dest hmem
      · exact htakes ⟨dest, (List.mem_singleton.1 hmem).symm⟩

omit [Ord K] [Ord Q] [KeyView K Q] in
/-- What is registered is of the forest it is registered in, and stands under its own tag. -/
theorem Tidy.registered (h : s.Tidy aug cs (fun _ => True) 0) {v : UInt64}
    (ht : s.holding (.registered n v) = some t) : t.forest = n ∧ t.version = v := by
  cases hf : s.forests[n]? with
  | none =>
    rw [holding_of_no_forest hf] at ht
    cases ht
  | some f =>
    obtain ⟨c, hc⟩ := h.exists_config hf
    obtain ⟨hid, -, htended⟩ := h.tended n f c hf hc
    rw [holding, shelf_of_forest hf] at ht
    obtain ⟨hversion, hown⟩ := Forest.version_of_lookup htended.shelved ht
    exact ⟨hown.trans hid, hversion⟩

omit [Ord K] [Ord Q] [KeyView K Q] in
/-- Unless a handle comes in under the tag or is taken out, the same stands there as before. -/
theorem filed_iff_of_same (h : s.Tidy aug cs (fun _ => True) 0) {v : UInt64}
    (hfiled : s.filed c n v = s.holding (.registered n v))
    (henters : ∀ t, t.forest = n → t.version = v → ¬ s.Enters c t) (htakes : ¬ Takes c n v) :
    s.filed c n v = some t ↔ t.forest = n ∧ t.version = v ∧
      (s.Enters c t ∨ s.holding (.registered n v) = some t ∧ ¬ Takes c n v) := by
  rw [hfiled]
  constructor
  · exact fun ht => ⟨(h.registered ht).1, (h.registered ht).2, .inr ⟨ht, htakes⟩⟩
  · rintro ⟨hown, hv, ht | ⟨ht, -⟩⟩
    · exact absurd ht (henters t hown hv)
    · exact ht

omit [Ord K] [Ord Q] [KeyView K Q] in
theorem filed_register_iff (h : s.Tidy aug cs (fun _ => True) 0) (htagged : s.Tagged) (m : Nat)
    (name : String) {v : UInt64} :
    s.filed (.register m name : Command K V Q) n v = some t ↔ t.forest = n ∧ t.version = v ∧
      (s.Enters (.register m name : Command K V Q) t ∨ s.holding (.registered n v) = some t ∧
        ¬ Takes (.register m name : Command K V Q) n v) := by
  have htakes : ¬ Takes (.register m name : Command K V Q) n v := by
    rintro ⟨dest, hc⟩
    cases hc
  cases hname : s.trees.get? name with
  | none =>
    refine filed_iff_of_same h (by rw [filed, hname]) ?_ htakes
    rintro t - - ⟨name', hc, ht⟩
    cases hc
    rw [hname] at ht
    cases ht
  | some u =>
    by_cases hu : m = n ∧ u.forest = n ∧ u.version = v
    · rw [filed, hname]
      dsimp only
      rw [if_pos hu]
      obtain ⟨rfl, hown, rfl⟩ := hu
      constructor
      · rintro ⟨⟩
        exact ⟨hown, rfl, .inl ⟨name, by rw [hown], hname⟩⟩
      · rintro ⟨hown', hv, ⟨name', hc, ht⟩ | ⟨ht, -⟩⟩
        · cases hc
          exact hname.symm.trans ht
        -- The one that stands there already has the same tag.
        · exact congrArg some (htagged.unique t (mem_handles_of_holding ht) u
            (mem_handles_of_holding (x := .tree name) hname) (hown.trans hown'.symm) hv.symm)
    · refine filed_iff_of_same h (by rw [filed, hname]; exact if_neg hu) ?_ htakes
      rintro t hown hv ⟨name', hc, ht⟩
      cases hc
      rw [hname] at ht
      cases ht
      exact hu ⟨hown, hown, hv⟩

omit [Ord K] [Ord Q] [KeyView K Q] in
theorem filed_unregister_iff (h : s.Tidy aug cs (fun _ => True) 0) (m : Nat) (w : UInt64)
    (dest : Option String) {v : UInt64} :
    s.filed (.unregister m w dest : Command K V Q) n v = some t ↔ t.forest = n ∧ t.version = v ∧
      (s.Enters (.unregister m w dest : Command K V Q) t ∨ s.holding (.registered n v) = some t ∧
        ¬ Takes (.unregister m w dest : Command K V Q) n v) := by
  have henters : ∀ t, ¬ s.Enters (.unregister m w dest : Command K V Q) t := by
    rintro t ⟨name, hc, -⟩
    cases hc
  by_cases hmw : m = n ∧ w = v
  · obtain ⟨rfl, rfl⟩ := hmw
    rw [filed, if_pos ⟨rfl, rfl⟩]
    constructor
    · rintro ⟨⟩
    · rintro ⟨-, -, ht | ⟨-, htakes⟩⟩
      · exact absurd ht (henters t)
      · exact absurd ⟨dest, rfl⟩ htakes
  · refine filed_iff_of_same h (if_neg hmw) (fun t _ _ => henters t) ?_
    rintro ⟨dest', hc⟩
    cases hc
    exact hmw ⟨rfl, rfl⟩

omit [Ord K] [Ord Q] [KeyView K Q] in
/-- What stands under a tag after a command. -/
theorem filed_eq_some_iff (h : s.Tidy aug cs (fun _ => True) 0) (htagged : s.Tagged) {v : UInt64} :
    s.filed c n v = some t ↔ t.forest = n ∧ t.version = v ∧
      (s.Enters c t ∨ s.holding (.registered n v) = some t ∧ ¬ Takes c n v) := by
  cases c with
  | register m name => exact filed_register_iff h htagged m name
  | unregister m w dest => exact filed_unregister_iff h m w dest
  | _ =>
    refine filed_iff_of_same h rfl ?_ ?_
    · rintro t - - ⟨name, hc, -⟩
      cases hc
    · rintro ⟨dest, hc⟩
      cases hc

/-- After a run a handle stands under a tag exactly if the run has registered it under that tag and
has not taken it out since. -/
theorem registered_iff (cmds : List (Command K V Q)) (h : s₀.Tidy aug cs (fun _ => True) 0)
    (htagged : s₀.Tagged) (hnone : ∀ n v, s₀.holding (.registered n v) = none)
    (hquiet : ¬ Rung (execAllBy sort cmds s₀))
    (hfew : ∀ m, (execAllBy sort cmds s₀).derivedIn m ≤ 2 ^ 64) {v : UInt64} :
    (execAllBy sort cmds s₀).holding (.registered n v) = some t ↔
      Enrolled sort s₀ cmds t ∧ t.forest = n ∧ t.version = v := by
  induction cmds using List.reverseRecOn with
  | nil =>
    rw [execAllBy, hnone]
    constructor
    · rintro ⟨⟩
    · rintro ⟨⟨pre, name, post, heq, -⟩, -⟩
      simp at heq
  | append_singleton cmds c ih =>
    obtain ⟨hpre, htidy, hle⟩ := run_append cmds [c] h hquiet
    have hfew' : ∀ m, (execAllBy sort cmds s₀).derivedIn m ≤ 2 ^ 64 := fun m =>
      (hle m).trans (hfew m)
    have hnext : execAllBy sort (cmds ++ [c]) s₀ = next sort c (execAllBy sort cmds s₀) := by
      rw [execAllBy_append, execAllBy_cons, execAllBy]
    rw [hnext] at hquiet
    rw [hnext, (accounted_next htidy c hquiet).files,
      filed_eq_some_iff htidy (tagged_execAllBy cmds h hpre hfew' htagged), ih hpre hfew',
      enrolled_append]
    constructor
    · rintro ⟨rfl, rfl, henters | ⟨⟨henrolled, -⟩, htakes⟩⟩
      · exact ⟨.inl henters, rfl, rfl⟩
      · exact ⟨.inr ⟨henrolled, htakes⟩, rfl, rfl⟩
    · rintro ⟨henters | ⟨henrolled, htakes⟩, rfl, rfl⟩
      · exact ⟨rfl, rfl, .inl henters⟩
      · exact ⟨rfl, rfl, .inr ⟨⟨henrolled, rfl, rfl⟩, htakes⟩⟩

/-! ## The law -/

/-- Handles of one forest with one tag have one root and show one tree, slot for slot. -/
def SameTags (s s' : Session K V T) : Prop :=
  ∀ t ∈ s.handles, ∀ u ∈ s'.handles, u.forest = t.forest → u.version = t.version →
    u.root = t.root ∧ ∃ p, s.Shows t p ∧ s'.Shows u p

/-- The answer is the handle that the run has registered under the tag and has not taken out since,
if there is one, and it shows what it has shown whenever it was held. -/
structure Recalls (sort : List (K × V) → List (K × V)) (s₀ : Session K V T)
    (cmds : List (Command K V Q)) (n : Nat) (v : UInt64) (o : Option Snapshot)
    (f' : Forest K V T) : Prop where
  answer : ∀ t, o = some t ↔ Enrolled sort s₀ cmds t ∧ t.forest = n ∧ t.version = v
  shown : ∀ t ∈ o, ∀ pre post, cmds = pre ++ post → t ∈ (execAllBy sort pre s₀).handles →
    ∃ p, (execAllBy sort pre s₀).Shows t p ∧ p.root = t.root ∧ f'.store.Unfolds p

/-- The registry of a forest tells what the run has registered. -/
structure Catalogued (sort : List (K × V) → List (K × V)) (s₀ : Session K V T)
    (cmds : List (Command K V Q)) (n : Nat) (f : Forest K V T) : Prop where
  get : ∀ v, Ends (Forest.lookup v f) (Recalls sort s₀ cmds n v) Never
  take : ∀ v, Ends (Forest.unregister v f) (Recalls sort s₀ cmds n v) Never
  sorted : f.versions.Pairwise (· < ·)
  versions : ∀ v, v ∈ f.versions ↔
    ∃ t, Enrolled sort s₀ cmds t ∧ t.forest = n ∧ t.version = v
  foreign : ∀ t, t.forest ≠ n → Forest.register t f = .error (.refused .foreignTree) f

section

variable {cmds : List (Command K V Q)} (h : s₀.Tidy aug cs (fun _ => True) 0)
  (htagged : s₀.Tagged) (hquiet : ¬ Rung (execAllBy sort cmds s₀))
  (hfew : ∀ m, (execAllBy sort cmds s₀).derivedIn m ≤ 2 ^ 64)
include h htagged hquiet hfew

/-- Handles are told by their tags, at whatever moments they are held. -/
theorem same_of_tag {pre post : List (Command K V Q)} (hcmds : cmds = pre ++ post)
    (ht : t ∈ (execAllBy sort pre s₀).handles) (hu : u ∈ (execAllBy sort cmds s₀).handles)
    (hforest : u.forest = t.forest) (hversion : u.version = t.version) :
    u = t ∧ ∃ p, (execAllBy sort pre s₀).Shows t p ∧ (execAllBy sort cmds s₀).Shows t p := by
  subst hcmds
  obtain ⟨hpre, htidy, hle⟩ := run_append pre post h hquiet
  have hpretagged := tagged_execAllBy pre h hpre (fun m => (hle m).trans (hfew m)) htagged
  obtain ⟨p, hp, -⟩ := htidy.exists_shown (has_of_mem_handles htidy ht)
  rw [execAllBy_append] at hquiet hfew hu ⊢
  have hold : u.version.toNat < (execAllBy sort pre s₀).derivedIn u.forest := by
    rw [hversion, hforest]
    exact hpretagged.below t ht
  obtain ⟨hu', hshown⟩ := held_since post htidy hquiet hfew hu hold
  obtain rfl := hpretagged.unique t ht u hu' hforest hversion
  exact ⟨rfl, p, hp, hshown p hp⟩

variable (hnone : ∀ n v, s₀.holding (.registered n v) = none) {f f' : Forest K V T}
  (hf : (execAllBy sort cmds s₀).forests[n]? = some f)
include hnone hf

theorem recalls_of_onward {c : Config} {O : Multiset Snapshot} {v : UInt64}
    (htended : f.Tended c (fun _ => True) O)
    (hon : f.Onward c (fun _ => True) O
      (O + ((f.registry.lookup v).toList : Multiset Snapshot)) f') :
    Recalls sort s₀ cmds n v (f.registry.lookup v) f' := by
  have hheld : (execAllBy sort cmds s₀).holding (.registered n v) = f.registry.lookup v := by
    rw [holding, shelf_of_forest hf]
  refine ⟨fun t => ?_, fun t ht pre post hcmds hpre => ?_⟩
  · rw [← hheld]
    exact registered_iff cmds h htagged hnone hquiet hfew
  · obtain ⟨hmem, hown⟩ := htended.mem_of_lookup ht
    have hreg := hheld.trans ht
    obtain ⟨-, p, hp, f₁, hf₁, hroot, hunf⟩ :=
      same_of_tag h htagged hquiet hfew hcmds hpre (mem_handles_of_holding hreg) rfl rfl
    have htidy := tidy_execAllBy (closed_true aug) cmds h hquiet
    obtain rfl : f = f₁ := by
      rw [(htidy.registered hreg).1, hf] at hf₁
      exact Option.some.inj hf₁
    have hmem' : t ∈ f'.held (O + ((f.registry.lookup v).toList : Multiset Snapshot)) := by
      rw [Option.mem_def.1 ht]
      exact Forest.mem_held_of_own (by simp) (hown.trans hon.id.symm)
    exact ⟨p, hp, hroot, hon.keeps t hmem hmem' p hroot hunf⟩

theorem catalogued : Catalogued sort s₀ cmds n f := by
  have htidy := tidy_execAllBy (closed_true aug) cmds h hquiet
  obtain ⟨c, hc⟩ := htidy.exists_config hf
  obtain ⟨hid, -, htended⟩ := htidy.tended n f c hf hc
  constructor
  case get =>
    intro v
    -- Both for what is answered and for the reason why nothing is.
    refine ((Forest.lookup_spec v htended).and (Forest.lookup_succeeds htended v)).mono ?_ ?_
    · rintro o f' ⟨⟨rfl, -, hon⟩, -⟩
      exact recalls_of_onward h htagged hquiet hfew hnone hf htended hon
    · exact fun e f' hfalse => hfalse.2
  case take =>
    intro v
    obtain ⟨f', hrun, -, hon⟩ := Forest.unregister_spec v htended
    exact .of_ok hrun fun _ => recalls_of_onward h htagged hquiet hfew hnone hf htended hon
  case sorted => exact List.pairwise_map.2 htended.shelved.sorted
  case versions =>
    intro v
    have hheld : (execAllBy sort cmds s₀).holding (.registered n v) = f.registry.lookup v := by
      rw [holding, shelf_of_forest hf]
    constructor
    · intro hv
      obtain ⟨⟨w, t⟩, hmem, rfl⟩ := List.mem_map.1 hv
      refine ⟨t, (registered_iff cmds h htagged hnone hquiet hfew).1 (hheld.trans ?_)⟩
      exact lookup_of_mem htended.shelved.nodup hmem
    · rintro ⟨t, ht⟩
      have hlookup := hheld.symm.trans ((registered_iff cmds h htagged hnone hquiet hfew).2 ht)
      obtain ⟨l, r, hreg, -⟩ := List.lookup_eq_some_iff.1 hlookup
      rw [Forest.versions, hreg]
      simp
  case foreign =>
    intro t ht
    have hreq := Forest.requireOwn_eq t f
    rw [hid, if_neg ht] at hreq
    rw [Forest.register, bind_of_error hreq]

end

omit [Ord K] [Ord Q] [KeyView K Q] in
/-- At first nothing is held. -/
theorem handles_new (aug : Augment K V T) (configs : List Config) :
    (new aug configs).handles = [] := by
  have hforests : (new aug configs).forests.toList.flatMap (fun f => f.registry.map (·.2)) = [] := by
    refine List.flatMap_eq_nil_iff.2 fun f hf => ?_
    obtain ⟨n, hn, rfl⟩ := List.mem_mapIdx.1 hf
    rfl
  rw [handles, hforests]
  rfl

/-- Tags identify snapshots, and registries tell what has been registered.  Handles with one tag show
one tree at all moments of a run; at its end an operation stamps what it makes with numbers above all
that have been seen, unless it answers with its operand; and what is found in a registry is what has
been put there. -/
theorem tags_identify_snapshots {aug : Augment K V T} {configs : List Config}
    (cmds : List (Command K V Q)) (hquiet : (execAllBy sort cmds (new aug configs)).Quiet)
    (hfew : ∀ n, (execAllBy sort cmds (new aug configs)).derivedIn n < 2 ^ 64) :
    (∀ pre mid post, cmds = pre ++ mid ++ post → SameTags (execAllBy sort pre (new aug configs))
      (execAllBy sort (pre ++ mid) (new aug configs))) ∧
    ∀ (n : Nat) (f : Forest K V T),
      (execAllBy sort cmds (new aug configs)).forests[n]? = some f →
      Catalogued sort (new aug configs) cmds n f ∧
      ∀ q : Request K V Q γ Snapshot,
        q.Among (execAllBy sort cmds (new aug configs)).handles n →
        Ends (q.run sort f)
          (fun r f' => f.Numbers q r f' ∧ (¬ q.Reuses f → f'.derived < 2 ^ 64 →
            ∀ u ∈ r.trees, ∀ pre post, cmds = pre ++ post →
              ∀ t ∈ (execAllBy sort pre (new aug configs)).handles, t.forest = n →
                t.version < u.version))
          fun _ f' => f'.derived = f.derived := by
  have hnew : (new aug configs).Tidy aug configs (fun _ => True) 0 := tidy_new aug configs
  have htagged : (new aug configs).Tagged := by
    constructor <;> simp [handles_new]
  have hnone : ∀ n v, (new aug configs).holding (.registered n v) = none := by
    intro n v
    refine Option.eq_none_iff_forall_not_mem.2 fun t ht => ?_
    have hmem := mem_handles_of_holding ht
    rw [handles_new] at hmem
    cases hmem
  have hsilent := not_rung_of_quiet hquiet
  have hle := fun m => (hfew m).le
  have htidy := tidy_execAllBy (closed_true aug) cmds hnew hsilent
  refine ⟨?_, fun n f hf => ⟨catalogued hnew htagged hsilent hle hnone hf, fun q hq => ?_⟩⟩
  · rintro pre mid post rfl t ht u hu hforest hversion
    obtain ⟨hmid, -, hle'⟩ := run_append (pre ++ mid) post hnew hsilent
    obtain ⟨rfl, hshown⟩ := same_of_tag hnew htagged hmid (fun m => (hle' m).trans (hle m)) rfl ht hu
      hforest hversion
    exact ⟨rfl, hshown⟩
  · obtain ⟨rfl, -, c, F, -, hsound, -, hF⟩ := htidy.exists_books hf
    refine (Forest.numbers_run hF hsound q (htidy.posed hf hq)).weaken fun r f' hnum => ⟨hnum, ?_⟩
    intro hfresh hlt u hu pre post hcmds t ht hown
    obtain ⟨htags, hcount⟩ := hnum.fresh hfresh
    -- The new number is not below the count, and all earlier ones are.
    have hnumber := (Forest.tag_bounds htags (by omega) hu).1
    subst hcmds
    obtain ⟨hpre, -, hgrown⟩ := run_append pre post hnew hsilent
    have hbelow := (tagged_execAllBy pre hnew hpre (fun m => (hgrown m).trans (hle m))
      htagged).below t ht
    have hcounted := hgrown t.forest
    rw [hown, derivedIn_of_forest hf] at hcounted
    rw [hown] at hbelow
    rw [UInt64.lt_iff_toNat_lt]
    omega

/-- A tree is registered twice, the second time by way of a copy, and given up everywhere else. -/
def registering : List (Command Nat Int64) :=
  [.empty 0 "a", .insert "a" 2 20 "b", .register 0 "b", .copy "b" "c", .register 0 "c", .drop "b",
    .drop "c", .insert "a" 1 10 "a", .register 0 "a"]

theorem tags_identify_snapshots_registering :
    ∃ f, (execAllBy Forest.sortByKey registering (new .sum [{}])).forests[0]? = some f ∧
      Catalogued Forest.sortByKey (new .sum [{}]) registering 0 f ∧ f.versions = [1, 2] ∧
      SameTags (execAllBy Forest.sortByKey (registering.take 3) (new .sum [{}]))
        (execAllBy Forest.sortByKey (registering.take 3 ++ registering.drop 3) (new .sum [{}])) := by
  have hquiet : (execAllBy Forest.sortByKey registering (new .sum [{}])).Quiet := by decide +kernel
  have hfew : ∀ n, (execAllBy Forest.sortByKey registering (new .sum [{}])).derivedIn n < 2 ^ 64 := by
    intro n
    cases n with
    | zero => decide +kernel
    | succ n =>
      have hsize : (execAllBy Forest.sortByKey registering (new .sum [{}])).forests.size = 1 := by
        decide +kernel
      rw [derivedIn, Array.getElem?_eq_none (by omega)]
      decide
  obtain ⟨hsame, hforest⟩ := tags_identify_snapshots (γ := Unit) registering hquiet hfew
  obtain ⟨f, hf⟩ := Option.isSome_iff_exists.1
    (show ((execAllBy Forest.sortByKey registering (new .sum [{}])).forests[0]?).isSome by
      decide +kernel)
  have hversions : ((execAllBy Forest.sortByKey registering (new .sum [{}])).forests[0]?).all
      (·.versions == [1, 2]) := by decide +kernel
  rw [hf] at hversions
  exact ⟨f, hf, (hforest 0 f hf).1, by simpa using hversions,
    hsame (registering.take 3) (registering.drop 3) [] rfl⟩

end

end Session

end SharedForest
