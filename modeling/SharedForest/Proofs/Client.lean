/-
Clients of a bare store.

A client of the store knows nothing of trees.  It owns references, some in hand and some
under names, and it is disciplined: it drops only references that it owns, hands owned
references over with a cell it stores, and takes references only to live slots.  Cells may be
shared in any way, linked to one place twice, and chained to any length.

A slot can be live without being referred to: it waits to be taken back.  Where slots are taken
back in batches a client must leave those alone as well (`Served`), since a batch goes back without
another look at the counts: a slot that was referred to anew goes back with the others, and may go
back twice.  Where slots are taken back at once none ever waits, and it is enough that the slot is
live (`ServedLive`, and `ServedLive.served`).

`Owns` forgets the trees of `Sound` and keeps the slots of their roots, since that is all a
client has.  The laws of the primitives carry over; a client moves references about but never
has to say what is below them.  By a step lemma for each command, whatever a disciplined client
does leaves it with the references it should have (`Served.kept`), and then the store keeps what
can be reached from these, or from a slot that waits to be taken back, and nothing else.
-/
import SharedForest.Proofs.Reach
import SharedForest.Bench.Cells

set_option autoImplicit false

namespace SharedForest

open Tree StoreM Alarmed

variable {ν α : Type}

namespace Store

variable {s s' : Store ν} {c : Config} {F G : Multiset (Placed ν)} {O O' : Multiset Nat}
  {l r : Option Nat} {i : Nat}

/-! ## Owned references -/

/-- The books are right, and `O` are the slots that references are held to outside. -/
def Owns (s : Store ν) (c : Config) (O : Multiset Nat) : Prop :=
  ∃ F : Multiset (Placed ν), F.filterMap Tree.root = O ∧ s.Sound c F

/-- Nothing is referred to at first. -/
theorem owns_new (c : Config) : (new (ν := ν) c).Owns c 0 := ⟨0, rfl, sound_new c⟩

/-- One of the references, or none, with the tree below it. -/
theorem exists_part (root : Option Nat) (h : s.Sound c (F + G))
    (hF : F.filterMap Tree.root = O + (root.toList : Multiset Nat)) :
    ∃ F' p, p.root = root ∧ F'.filterMap Tree.root = O ∧ s.Sound c (F' + {p} + G) := by
  cases root with
  | none => exact ⟨F, .absent, rfl, by simpa using hF, h.with_absent.cast (add_right_comm ..)⟩
  | some i =>
    have hmem : i ∈ F.filterMap Tree.root := by simp [hF]
    obtain ⟨p, hp, hroot⟩ := (Multiset.mem_filterMap _ _).1 hmem
    obtain ⟨F', rfl⟩ := Multiset.exists_cons_of_mem hp
    refine ⟨F', p, hroot, ?_, h.cast (by rw [add_comm F', Multiset.singleton_add])⟩
    rw [Multiset.filterMap_cons_some _ _ _ hroot, Option.toList_some, Multiset.coe_singleton,
      add_comm, Multiset.singleton_add] at hF
    exact (Multiset.cons_inj_right i).1 hF

namespace Owns

theorem cast (h : s.Owns c O) (hO : O = O') : s.Owns c O' := hO ▸ h

theorem stocked (h : s.Owns c O) : s.Stocked c := by
  obtain ⟨F, -, hsound⟩ := h
  exact hsound.stocked

/-- What the client owns a reference to is counted. -/
theorem refs_ne (h : s.Owns c O) (hi : i ∈ O) : s.refs i ≠ 0 := by
  obtain ⟨F, rfl, hsound⟩ := h
  obtain ⟨p, hp, hroot⟩ := (Multiset.mem_filterMap _ _).1 hi
  exact (hsound.counted.contains_of_mem hp hroot).2

/-- Where slots are taken back at once, none waits. -/
theorem retired_eq_nil (h : s.Owns c O) (hpolicy : c.reclamation = .immediate) :
    s.retired.toList = [] := by
  obtain ⟨F, -, hsound⟩ := h
  have hback := hsound.backlog
  rw [Backlog, hsound.stocked.policy, hpolicy] at hback
  exact hback

/-- A live slot is referred to, unless it waits to be taken back. -/
theorem refs_ne_of_live (h : s.Owns c O) (hi : s.contains i) (hwait : i ∉ s.retired.toList) :
    s.refs i ≠ 0 := by
  intro hzero
  apply hwait
  obtain ⟨F, -, hsound⟩ := h
  have hmem := (hsound.counted.waiting_iff i).2 ⟨hi, hzero⟩
  rwa [List.append_nil] at hmem

/-- A reference is dropped, and what it alone kept goes back, now or with its batch. -/
theorem release (h : s.Owns c (O + {i})) :
    ∃ back s', release i s = .ok () s' ∧ s'.Owns c O ∧ s.Frees back s' := by
  obtain ⟨F, hF, hsound⟩ := h
  obtain ⟨F', p, hroot, hF', h₁⟩ := exists_part (some i) (hsound.cast (add_zero F).symm) hF
  obtain ⟨back, s', hrun, h', hfrees⟩ := release_frees (h₁.cast (add_zero _)) hroot
  exact ⟨back, s', hrun, ⟨F', hF', h'⟩, hfrees⟩

/-- References that are given up one by one. -/
theorem forM_release {is : List Nat} (h : s.Owns c (O + (is : Multiset Nat))) :
    ∃ s', is.forM StoreM.release s = .ok () s' ∧ s'.Owns c O := by
  induction is generalizing s with
  | nil => exact ⟨s, rfl, h.cast (by simp)⟩
  | cons i is ih =>
    have h₁ : s.Owns c (O + (is : Multiset Nat) + {i}) :=
      h.cast (by rw [← Multiset.cons_coe, ← Multiset.singleton_add]; abel)
    obtain ⟨-, s₁, hrel, h₂, -⟩ := h₁.release
    obtain ⟨s₂, hrest, h₃⟩ := ih h₂
    exact ⟨s₂, (bind_of_ok hrel).trans hrest, h₃⟩

/-- The same where there may be none. -/
theorem unshare (h : s.Owns c (O + (l.toList : Multiset Nat))) :
    ∃ s', unshare l s = .ok () s' ∧ s'.Owns c O := by
  unfold StoreM.unshare
  cases l with
  | none => exact ⟨s, rfl, h.cast (by simp)⟩
  | some i =>
    obtain ⟨-, s', hrun, h', -⟩ := h.release
    exact ⟨s', hrun, h'⟩

/-- A reference can be copied to whatever is referred to, by the client or by a cell. -/
theorem retain (h : s.Owns c O) (hne : s.refs i ≠ 0) :
    Ends (retain i s) (fun _ s' => s'.Owns c (O + {i})) Never := by
  obtain ⟨F, rfl, hsound⟩ := h
  obtain ⟨p, hroot, hp⟩ := hsound.counted.grounded i (hsound.counted.contains_of_refs_ne hne)
  obtain ⟨s', hrun, h'⟩ := retain_spec hsound.counted hp hroot hne
  refine .of_ok hrun fun hquiet => ⟨F + {p}, ?_, ?_⟩
  · rw [Multiset.filterMap_add, ← Multiset.cons_zero, Multiset.filterMap_cons_some _ _ _ hroot]
    rfl
  · obtain ⟨hcount, hr⟩ := h' (by simpa [Rung] using hquiet)
    exact ⟨hcount, hsound.stocked.recounted hr, hsound.backlog.recounted hr⟩

/-- All that waits goes back, and what the client owns stays. -/
theorem collect (h : s.Owns c O) :
    ∃ back s', collect s = .ok back.length s' ∧ s'.Owns c O ∧ s.Frees back s' ∧
      s'.retired.toList = [] := by
  obtain ⟨F, hF, hsound⟩ := h
  obtain ⟨back, s', hrun, h', hstock, hret, hfrees⟩ :=
    collect_frees hsound.counted hsound.stocked
  exact ⟨back, s', hrun, ⟨F, hF, h', hstock, backlog_of_empty hret⟩, hfrees, hret⟩

/-- A cell is stored with references that the client owned, or these are dropped. -/
theorem allocate (d : ν)
    (h : s.Owns c (O + ((l.toList : Multiset Nat) + (r.toList : Multiset Nat)))) :
    (∃ i s', allocate ⟨l, r, d⟩ s = .ok i s' ∧ s'.Owns c (O + {i}) ∧ s.occupied < s.limit ∧
      ¬ s.contains i ∧ s'.cell? i = some ⟨l, r, d⟩ ∧ ∀ j, j ≠ i → s'.cell? j = s.cell? j) ∨
    ∃ back s', allocate ⟨l, r, d⟩ s = .error (.refused (.capacityExceeded s.limit)) s' ∧
      s'.Owns c O ∧ s.occupied = s.limit ∧ s.Frees back s' ∧
      (l.toList ++ r.toList).forM StoreM.release s = .ok () s' := by
  obtain ⟨F, hF, hsound⟩ := h
  rw [← add_assoc] at hF
  obtain ⟨F₁, q, rfl, hF₁, h₁⟩ := exists_part r (hsound.cast (add_zero F).symm) hF
  obtain ⟨F₂, p, rfl, rfl, h₂⟩ := exists_part l (h₁.cast (add_zero _)) hF₁
  rw [hsound.stocked.limit_eq]
  obtain ⟨i, s', hrun, h', hlt, hdead, hsame⟩ | ⟨back, s', hrun, h', hfull, hfrees, hrel⟩ :=
    allocate_cases d h₂
  · refine .inl ⟨i, s', hrun, ⟨_, ?_, h'⟩, hsound.stocked.limit_eq ▸ hlt, hdead,
      h'.unfolds_last.1, hsame⟩
    rw [Multiset.filterMap_add]
    rfl
  · exact .inr ⟨back, s', hrun, ⟨F₂, rfl, h'⟩, hsound.stocked.limit_eq ▸ hfull, hfrees, hrel⟩

/-- Either way, the client no longer owns the references to the children. -/
theorem allocate_ends (d : ν)
    (h : s.Owns c (O + ((l.toList : Multiset Nat) + (r.toList : Multiset Nat)))) :
    Ends (StoreM.allocate ⟨l, r, d⟩ s) (fun i s' => s'.Owns c (O + {i}))
      fun _ s' => s'.Owns c O := by
  obtain ⟨i, s', hrun, h', -⟩ | ⟨back, s', hrun, h', -⟩ := h.allocate d
  · exact .of_ok hrun fun _ => h'
  · exact .of_error hrun h'

end Owns

/-! ## What is kept, and what goes back -/

/-- The slots in `freed` have gone to the end of the free queue, each once, and they are those
whose cells were taken back. -/
structure Returns (s : Store ν) (freed : List Nat) (s' : Store ν) : Prop where
  appended : s'.free.toList = s.free.toList ++ freed
  nodup : freed.Nodup
  mem_iff : ∀ i, i ∈ freed ↔ s.contains i ∧ ¬ s'.contains i

/-- What the books say was freed has gone from live to free. -/
theorem Frees.returns {back : List Nat} (h : s.Frees back s') (hs : s.Stocked c)
    (hs' : s'.Stocked c) : s.Returns back s' :=
  ⟨h.free, h.nodup hs', fun _ => h.mem_iff hs hs'⟩

/-- Live is what can be reached from a slot in `O`; or, where places are taken back in batches, from
such a slot or one that waits, of which there are not enough for a batch. -/
def Keeps (s : Store ν) (O : Multiset Nat) : Reclamation → Prop
  | .immediate => ∀ i, s.contains i ↔ ∃ j ∈ O, s.Reaches j i
  | .deferred batch =>
    s.retired.toList.length < max batch 1 ∧ s.retired.toList.Nodup ∧
      (∀ i ∈ s.retired.toList, s.contains i ∧ s.refs i = 0) ∧
      ∀ i, s.contains i ↔ ∃ j, (j ∈ O ∨ j ∈ s.retired.toList) ∧ s.Reaches j i

/-- Nothing is kept in vain for a client that owns references to the slots in `O`, nothing is taken
back that it can reach, and what is taken back can be used again. -/
structure Reclaims (s : Store ν) (c : Config) (O : Multiset Nat) : Prop where
  keeps : s.Keeps O c.reclamation
  release : ∀ i ∈ O, ∃ freed s', StoreM.release i s = .ok () s' ∧ s.Returns freed s'
  collect : ∃ freed s', StoreM.collect s = .ok freed.length s' ∧ s.Returns freed s' ∧
    s'.retired.toList = []
  limit : s.limit = min c.maxNodes maxPlaces
  /-- Unless all `limit` slots are live, a cell is put into one that was not. -/
  room : ∀ l r d, (l.toList : Multiset Nat) + (r.toList : Multiset Nat) ≤ O →
    s.occupied ≠ s.limit → ∃ i s', allocate ⟨l, r, d⟩ s = .ok i s' ∧ ¬ s.contains i ∧
      s'.cell? i = some ⟨l, r, d⟩ ∧ ∀ j, j ≠ i → s'.cell? j = s.cell? j
  /-- If they are, the references to the children of the cell are dropped. -/
  full : ∀ l r d, (l.toList : Multiset Nat) + (r.toList : Multiset Nat) ≤ O →
    s.occupied = s.limit → ∃ freed s',
      allocate ⟨l, r, d⟩ s = .error (.refused (.capacityExceeded s.limit)) s' ∧
      (l.toList ++ r.toList).forM StoreM.release s = .ok () s' ∧ s.Returns freed s'

/-- Live places are anchored in the books, and the books know only `O` and what waits. -/
theorem Owns.keeps (h : s.Owns c O) : s.Keeps O c.reclamation := by
  have hnone := h.retired_eq_nil
  obtain ⟨F, rfl, hsound⟩ := h
  have hwait := hsound.counted.waiting_iff
  have hnodup := hsound.counted.waiting_nodup
  have hback := hsound.backlog
  have hreach : ∀ i, s.contains i ↔
      ∃ j, (j ∈ F.filterMap Tree.root ∨ j ∈ s.retired.toList) ∧ s.Reaches j i := by
    intro i
    rw [hsound.counted.contains_iff_reaches hsound.stocked.unused]
    simp only [Anchored, Multiset.mem_filterMap, List.append_nil]
  rw [List.append_nil] at hnodup
  rw [Backlog, hsound.stocked.policy] at hback
  cases hpolicy : c.reclamation with
  | immediate =>
    intro i
    rw [hreach]
    simp [hnone hpolicy]
  | deferred batch =>
    rw [hpolicy] at hback
    refine ⟨by rwa [Fifo.length_toList], hnodup, fun i hi => ?_, hreach⟩
    exact (hwait i).1 (by rwa [List.append_nil])

/-- Each part is the law of one primitive, read for the slots of roots. -/
theorem Owns.reclaims (h : s.Owns c O) : s.Reclaims c O := by
  constructor
  case keeps => exact h.keeps
  case limit => exact h.stocked.limit_eq
  case release =>
    intro i hi
    have hO : O = O.erase i + {i} := by
      rw [add_comm, Multiset.singleton_add, Multiset.cons_erase hi]
    obtain ⟨back, s', hrun, h', hfrees⟩ := (h.cast hO).release
    exact ⟨back, s', hrun, hfrees.returns h.stocked h'.stocked⟩
  case collect =>
    obtain ⟨back, s', hrun, h', hfrees, hretired⟩ := h.collect
    exact ⟨back, s', hrun, hfrees.returns h.stocked h'.stocked, hretired⟩
  case room =>
    intro l r d hle hroom
    obtain ⟨O', rfl⟩ := Multiset.le_iff_exists_add.1 hle
    obtain ⟨i, s', hrun, -, -, hdead, hcell, hsame⟩ | ⟨back, s', -, -, hfull, -⟩ :=
      (h.cast (add_comm _ _)).allocate d
    · exact ⟨i, s', hrun, hdead, hcell, hsame⟩
    · exact absurd hfull hroom
  case full =>
    intro l r d hle hfull
    obtain ⟨O', rfl⟩ := Multiset.le_iff_exists_add.1 hle
    obtain ⟨i, s', -, -, hlt, -⟩ | ⟨back, s', hrun, h', -, hfrees, hrel⟩ :=
      (h.cast (add_comm _ _)).allocate d
    · exact absurd hfull hlt.ne
    · exact ⟨back, s', hrun, hrel, hfrees.returns h.stocked h'.stocked⟩

end Store

/-! ## Commands -/

namespace CellCommand

/-- The references that a command takes out of the client's hand. -/
def spent : CellCommand → Multiset Nat
  | .allocate l r => (l.toList : Multiset Nat) + (r.toList : Multiset Nat)
  | .hold _ l r => (l.toList : Multiset Nat) + (r.toList : Multiset Nat)
  | .release is => is
  | _ => 0

/-- The references that an answer to a command puts into the client's hand. -/
def gained : CellCommand → CellOutcome → Multiset Nat
  | .allocate _ _, .slot i => i.toList
  | .leaves _, .slots is _ => is
  | .chain _, .slot i => i.toList
  | .retain i, _ => {i}
  | .forget _, .slot i => i.toList
  | _, _ => 0

/-- The same for a command that may also have failed, which puts nothing there. -/
def proceeds (cmd : CellCommand) : EStateM.Result Trouble (Bench Unit) CellOutcome → Multiset Nat
  | .ok out _ => cmd.gained out
  | .error _ _ => 0

/-- The slot of which a command asks for one more reference by its number. -/
def copied : CellCommand → Option Nat
  | .retain i => some i
  | .share _ i => some i
  | _ => none

end CellCommand

namespace Bench

variable {b b' : Bench ν} {c : Config} {O raw : Multiset Nat} {name : String}

/-! ## Alarms -/

instance : Alarmed (Bench ν) := ⟨fun b => Rung b.store⟩

instance lasting_onStore {action : StoreM ν α} [h : Lasting action] :
    Lasting (onStore action) := by
  constructor
  intro b hb
  have hlast := h.rung b.store hb
  unfold onStore
  cases hr : action b.store <;> rw [hr] at hlast <;> exact hlast

instance lasting_link (name : String) : Lasting (link (ν := ν) name) := by
  refine .bind .get fun b => ?_
  cases b.links.get? name with
  | none => exact .throw _
  | some i => exact .pure _

instance lasting_keep (name : String) (root : Option Nat) :
    Lasting (keep (ν := ν) name root) :=
  .bind .get fun _ => .bind (.modify fun _ h => h) fun _ => lasting_onStore

/-! ## The books of a bench -/

/-- The books of the store are right, with `raw` held besides what is under names. -/
structure Kept (b : Bench ν) (c : Config) (raw : Multiset Nat) : Prop where
  links : b.links.Distinct
  owns : b.store.Owns c (raw + (b.links.all : Multiset Nat))

theorem kept_new (c : Config) : (new (ν := ν) c).Kept c 0 :=
  ⟨List.nodup_nil, Store.owns_new c⟩

/-- Names stay as they are when something is done in the store. -/
theorem onStore_of_ok {action : StoreM ν α} {a : α} {s' : Store ν}
    (h : action b.store = .ok a s') : onStore action b = .ok a { b with store := s' } := by
  rw [onStore, h]

/-- An action that leaves the client with `O`, and with `L` if it succeeds. -/
theorem onStore_kept {action : StoreM ν α} {L : α → Multiset Nat} (h : b.links.Distinct)
    (ha : Ends (action b.store) (fun a s' => s'.Owns c (O + (b.links.all : Multiset Nat) + L a))
      fun _ s' => s'.Owns c (O + (b.links.all : Multiset Nat))) :
    Ends (onStore action b) (fun a b' => b'.Kept c (O + L a)) fun _ b' => b'.Kept c O := by
  unfold onStore
  cases hr : action b.store with
  | ok a s' =>
    rw [hr] at ha
    exact fun hs => ⟨h, (ha hs).cast (add_right_comm ..)⟩
  | error e s' =>
    rw [hr] at ha
    exact fun hs => ⟨h, ha hs⟩

namespace Kept

theorem cast {raw' : Multiset Nat} (h : b.Kept c raw) (hraw : raw = raw') : b.Kept c raw' :=
  hraw ▸ h

/-- A new cell is one more thing in hand. -/
theorem allocate (l r : Option Nat) (d : ν)
    (h : b.Kept c (raw + ((l.toList : Multiset Nat) + (r.toList : Multiset Nat)))) :
    Ends (onStore (StoreM.allocate ⟨l, r, d⟩) b) (fun i b' => b'.Kept c (raw + {i}))
      fun _ b' => b'.Kept c raw :=
  onStore_kept h.links ((h.owns.cast (add_right_comm ..)).allocate_ends d)

/-- So is a reference that is taken. -/
theorem retain {i : Nat} (h : b.Kept c raw) (hne : b.store.refs i ≠ 0) :
    Ends (onStore (StoreM.retain i) b) (fun _ b' => b'.Kept c (raw + {i}))
      fun _ b' => b'.Kept c raw :=
  onStore_kept h.links (h.owns.retain hne).sure

/-- A held reference is counted. -/
theorem refs_ne {i : Nat} (h : b.Kept c raw) (hi : b.links.get? name = some i) :
    b.store.refs i ≠ 0 := by
  have hall := Names.all_erase h.links name
  refine h.owns.refs_ne (Multiset.mem_add.2 (.inr ?_))
  rw [← hall, hi]
  simp

/-- A reference goes under a name, or none does, and what was there before is dropped. -/
theorem keep (root : Option Nat) {E : Trouble → Bench ν → Prop}
    (h : b.Kept c (raw + (root.toList : Multiset Nat))) (name : String) :
    Ends (keep name root b) (fun _ b' => b'.Kept c raw) E := by
  obtain ⟨links, hlinks, hdistinct, hall⟩ : ∃ links : Names Nat,
      Bench.keep name root b = onStore (StoreM.unshare (b.links.get? name)) { b with links } ∧
      links.Distinct ∧ (links.all : Multiset Nat) + ((b.links.get? name).toList : Multiset Nat)
        = (b.links.all : Multiset Nat) + (root.toList : Multiset Nat) := by
    cases root with
    | none =>
      refine ⟨b.links.erase name, rfl, Names.distinct_erase h.links name, ?_⟩
      rw [Names.all_erase h.links name]
      simp
    | some i =>
      exact ⟨b.links.put name i, rfl, Names.distinct_put h.links name i,
        Names.all_put h.links name i⟩
  have howns := h.owns.cast
    (show _ = raw + (links.all : Multiset Nat) + ((b.links.get? name).toList : Multiset Nat) by
      rw [add_assoc raw (links.all : Multiset Nat), hall]
      abel)
  obtain ⟨s', hrun, h'⟩ := howns.unshare
  have hkeep : Bench.keep name root b = .ok () ⟨s', links⟩ := by rw [hlinks, onStore, hrun]
  exact .of_ok hkeep fun _ => ⟨hdistinct, h'⟩

/-- A reference that is needed by name. -/
theorem link (h : b.Kept c raw) (name : String) :
    Ends (link name b) (fun i b' => b = b' ∧ b.links.get? name = some i)
      fun _ b' => b'.Kept c raw := by
  rw [Bench.link, bind_get]
  cases hi : b.links.get? name with
  | some i => exact .pure ⟨rfl, rfl⟩
  | none => exact .error h

/-- A reference that goes out of its name is in hand. -/
theorem forget {i : Nat} (h : b.Kept c raw) (hi : b.links.get? name = some i) :
    Kept { b with links := b.links.erase name } c (raw + {i}) := by
  have hall := Names.all_erase h.links name
  rw [hi, Option.toList_some, Multiset.coe_singleton] at hall
  refine ⟨Names.distinct_erase h.links name, h.owns.cast ?_⟩
  rw [← hall]
  abel

end Kept

/-! ## Commands -/

instance lasting_storeLeaves (n : Nat) : Lasting (storeLeaves n) := by
  induction n with
  | zero => exact .pure _
  | succ n ih =>
    constructor
    intro s hs
    have halloc := (lasting_allocate ⟨none, none, ()⟩).rung s hs
    unfold storeLeaves
    cases hr : StoreM.allocate ⟨none, none, ()⟩ s with
    | error e s₁ =>
      rw [hr] at halloc
      exact halloc
    | ok i s₁ =>
      rw [hr] at halloc
      have hrest := ih.rung s₁ halloc
      dsimp only
      cases hr' : storeLeaves n s₁ <;> rw [hr'] at hrest <;> exact hrest

instance lasting_storeChain (n : Nat) (root : Option Nat) : Lasting (storeChain n root) := by
  induction n generalizing root with
  | zero => exact .pure _
  | succ n ih => exact .bind (lasting_allocate _) fun i => ih _

/-- As many cells as there is room for, and a reference to each. -/
theorem storeLeaves_owns {s : Store Unit} (n : Nat) (h : s.Owns c O) :
    Ends (storeLeaves n s) (fun a s' => s'.Owns c (O + (a.1 : Multiset Nat))) Never := by
  induction n generalizing s O with
  | zero => exact .ok (h.cast (by simp))
  | succ n ih =>
    have h₀ : s.Owns c (O + (([] : List Nat) + ([] : List Nat) : Multiset Nat)) := h.cast (by simp)
    unfold storeLeaves
    obtain ⟨i, s₁, hrun, h₁, -⟩ | ⟨back, s₁, hrun, h₁, -⟩ :=
      Store.Owns.allocate (l := none) (r := none) () h₀
    · rw [hrun]
      dsimp only
      have hrest := ih h₁
      cases hr : storeLeaves n s₁ with
      | ok a s₂ =>
        rw [hr] at hrest
        refine fun hs => (hrest hs).cast ?_
        rw [← Multiset.cons_coe, ← Multiset.singleton_add]
        abel
      | error e s₂ =>
        rw [hr] at hrest
        exact hrest
    · rw [hrun]
      exact .ok (h₁.cast (by simp))

/-- A chain: each cell takes the reference to the one before. -/
theorem storeChain_owns {s : Store Unit} (n : Nat) (root : Option Nat)
    (h : s.Owns c (O + (root.toList : Multiset Nat))) :
    Ends (storeChain n root s) (fun root' s' => s'.Owns c (O + (root'.toList : Multiset Nat)))
      fun _ s' => s'.Owns c O := by
  induction n generalizing s root with
  | zero => exact .ok h
  | succ n ih =>
    have hnone : O + (root.toList : Multiset Nat)
        = O + ((root.toList : Multiset Nat) + ([] : List Nat)) := by simp
    exact .bind ((h.cast hnone).allocate_ends (r := none) ()) fun i s₁ h₁ => ih (some i) h₁

instance lasting_execCell (cmd : CellCommand) : Lasting (execCell cmd) := by
  cases cmd with
  | leaves n => exact .bind lasting_onStore fun ⟨_, _⟩ => .pure _
  | forget source =>
    exact .bind (lasting_link source) fun i => .bind (.modify fun _ h => h) fun _ => .pure _
  | _ =>
    unfold execCell
    infer_instance

/-- Once a command has been carried out, the client has what the answer says; if it fails, what it
had handed over is gone. -/
theorem Kept.exec {b : Bench Unit} {cmd : CellCommand} (h : b.Kept c (raw + cmd.spent))
    (hcopied : ∀ i ∈ cmd.copied, b.store.refs i ≠ 0) :
    Ends (execCell cmd b) (fun out b' => b'.Kept c (raw + cmd.gained out))
      fun _ b' => b'.Kept c raw := by
  have hdone : ∀ {b' : Bench Unit}, b'.Kept c raw → b'.Kept c (raw + 0) := fun h' =>
    h'.cast (add_zero raw).symm
  cases cmd with
  | allocate l r => exact .bind (h.allocate l r ()) fun i b' h' => .pure h'
  | leaves n =>
    have h := h.cast (add_zero raw)
    exact .bind (onStore_kept h.links (storeLeaves_owns n h.owns).sure)
      fun ⟨is, ended⟩ b' h' => .pure h'
  | chain n =>
    have h := h.cast (add_zero raw)
    have hnone := h.owns.cast (add_zero _).symm
    exact .bind (onStore_kept h.links (storeChain_owns n none hnone))
      fun root b' h' => .pure h'
  | retain i =>
    have h := h.cast (add_zero raw)
    exact .bind (h.retain (hcopied i rfl)) fun _ b' h' => .pure h'
  | release is =>
    -- What is released has been handed over, so it is counted among what the slots refer to.
    obtain ⟨s', hrun, h'⟩ := (h.owns.cast (add_right_comm ..)).forM_release
    rw [execCell, bind_of_ok (onStore_of_ok hrun)]
    exact .pure (hdone ⟨h.links, h'⟩)
  | collect =>
    obtain ⟨back, s', hrun, h', -⟩ := (h.cast (add_zero raw)).owns.collect
    rw [execCell, bind_of_ok (onStore_of_ok hrun)]
    exact .pure (hdone ⟨h.links, h'⟩)
  | hold dest l r =>
    refine .bind (h.allocate l r ()) fun i b₁ h₁ => ?_
    exact .bind (h₁.keep (some i) dest) fun _ b₂ h₂ => .pure (hdone h₂)
  | share dest i =>
    have h := h.cast (add_zero raw)
    refine .bind (h.retain (hcopied i rfl)) fun _ b₁ h₁ => ?_
    exact .bind (h₁.keep (some i) dest) fun _ b₂ h₂ => .pure (hdone h₂)
  | copy source dest =>
    have h := h.cast (add_zero raw)
    refine .bind (h.link source) fun i b₁ ⟨hb, hi⟩ => ?_
    -- What is held under a name is referred to, so it may be shared.
    subst hb
    refine .bind (h.retain (h.refs_ne hi)) fun _ b₁ h₁ => ?_
    exact .bind (h₁.keep (some i) dest) fun _ b₂ h₂ => .pure (hdone h₂)
  | drop source =>
    refine .bind ((h.cast (add_zero raw)).link source) fun i b₁ ⟨hb, hi⟩ => ?_
    subst hb
    exact .bind (h.keep none source) fun _ b₂ h₂ => .pure (hdone h₂)
  | forget source =>
    have h := h.cast (add_zero raw)
    have hlasting : ∀ i : Nat, Lasting (do
        modify fun b : Bench Unit => { b with links := b.links.erase source }
        return CellOutcome.slot (some i) : BenchM Unit CellOutcome) := fun i =>
      .bind (.modify fun _ hb => hb) fun _ => .pure _
    refine .bind (h.link source) fun i b₁ ⟨hb, hi⟩ => ?_
    subst hb
    exact .pure (h.forget hi)

/-! ## Runs -/

/-- What a disciplined client can have done with a new store, and the references that it has in
hand then.  It gives up only what it has, in hand or under names, and of what it does not name it
copies only references to slots that are referred to. -/
inductive Served (c : Config) : Bench Unit → Multiset Nat → Prop
  | start : Served c (.new c) 0
  | step {b : Bench Unit} {raw : Multiset Nat} (cmd : CellCommand) (before : Served c b raw)
      (owned : cmd.spent ≤ raw) (counted : ∀ i ∈ cmd.copied, b.store.refs i ≠ 0) :
      Served c (final (execCell cmd b)) (raw - cmd.spent + cmd.proceeds (execCell cmd b))

theorem Served.cast {raw' : Multiset Nat} {b : Bench Unit} (h : Served c b raw)
    (hraw : raw = raw') : Served c b raw' := hraw ▸ h

/-- If no count has wrapped by the end of a run, its books are right. -/
theorem Served.kept {b : Bench Unit} (h : Served c b raw) (hquiet : ¬ Rung b) : b.Kept c raw := by
  induction h with
  | start => exact kept_new c
  | @step b raw cmd before owned counted ih =>
    -- The alarm was silent before the command, since it is after it.
    have hkept := ih fun hb => hquiet ((lasting_execCell cmd).rung b hb)
    have hstep := (hkept.cast (tsub_add_cancel_of_le owned).symm).exec counted
    cases hr : execCell cmd b with
    | ok out b' =>
      rw [hr] at hstep hquiet
      exact hstep hquiet
    | error why b' =>
      rw [hr] at hstep hquiet
      exact (hstep hquiet).cast (add_zero _).symm

/-- The same for a client that takes references to live slots without asking whether they are
referred to. -/
inductive ServedLive (c : Config) : Bench Unit → Multiset Nat → Prop
  | start : ServedLive c (.new c) 0
  | step {b : Bench Unit} {raw : Multiset Nat} (cmd : CellCommand) (before : ServedLive c b raw)
      (owned : cmd.spent ≤ raw) (live : ∀ i ∈ cmd.copied, b.store.contains i) :
      ServedLive c (final (execCell cmd b)) (raw - cmd.spent + cmd.proceeds (execCell cmd b))

theorem ServedLive.cast {raw' : Multiset Nat} {b : Bench Unit} (h : ServedLive c b raw)
    (hraw : raw = raw') : ServedLive c b raw' := hraw ▸ h

/-- Where slots are taken back at once, what is live is referred to, so nothing more is asked. -/
theorem ServedLive.served {b : Bench Unit} (h : ServedLive c b raw)
    (hpolicy : c.reclamation = .immediate) (hquiet : ¬ Rung b) : Served c b raw := by
  induction h with
  | start => exact .start
  | @step b raw cmd before owned live ih =>
    have hsilent : ¬ Rung b := fun hb => hquiet ((lasting_execCell cmd).rung b hb)
    have hserved := ih hsilent
    have howns := (hserved.kept hsilent).owns
    refine hserved.step cmd owned fun i hi => howns.refs_ne_of_live (live i hi) ?_
    rw [howns.retired_eq_nil hpolicy]
    exact List.not_mem_nil

/-- Whatever a disciplined client does, the store keeps what can be reached from its references and
from slots that wait to be taken back, and nothing else; slots that are taken back are handed out
again, and until they are all taken there is room.  Where slots wait, the client has to leave those
alone; where they do not, any live slot will do. -/
theorem reclaims_exactly {b : Bench Unit}
    (h : Served c b raw ∨ c.reclamation = .immediate ∧ ServedLive c b raw)
    (hquiet : b.store.alarms.countHigh = false) :
    b.store.Reclaims c (raw + (b.links.all : Multiset Nat)) := by
  have hsilent : ¬ Rung b := fun hrung => Bool.false_ne_true (hquiet.symm.trans hrung)
  have hserved : Served c b raw := by
    obtain hserved | ⟨hpolicy, hlive⟩ := h
    · exact hserved
    · exact hlive.served hpolicy hsilent
  exact (hserved.kept hsilent).owns.reclaims

/-- All places are taken: by a cell that waits to be taken back, by one that it links to twice, and
by one that is held. -/
def crowded : Bench Unit :=
  [.allocate none none, .retain 0, .hold "a" (some 0) (some 0), .copy "a" "b", .drop "a",
    .forget "b", .release [1], .allocate none none].foldl (fun b cmd => final (execCell cmd b))
    (.new { maxNodes := 3, reclamation := .deferred 2 })

/-- Each command is as disciplined as the run asks, which can be computed. -/
theorem served_crowded : Served { maxNodes := 3, reclamation := .deferred 2 } crowded {2} := by
  have hrun : Served { maxNodes := 3, reclamation := .deferred 2 } crowded _ :=
    ((((((((Served.start
    ).step (.allocate none none) (by decide +kernel) (by decide +kernel)
    ).step (.retain 0) (by decide +kernel) (by decide +kernel)
    ).step (.hold "a" (some 0) (some 0)) (by decide +kernel) (by decide +kernel)
    ).step (.copy "a" "b") (by decide +kernel) (by decide +kernel)
    ).step (.drop "a") (by decide +kernel) (by decide +kernel)
    ).step (.forget "b") (by decide +kernel) (by decide +kernel)
    ).step (.release [1]) (by decide +kernel) (by decide +kernel)
    ).step (.allocate none none) (by decide +kernel) (by decide +kernel)
  exact hrun.cast (by decide +kernel)

/-- There is no room for a cell above the one that is held.  The reference that was to be its link
is dropped, which makes a batch, and so all three are taken back. -/
theorem reclaims_exactly_crowded : crowded.store.retired.toList = [1] ∧
    crowded.store.Reclaims { maxNodes := 3, reclamation := .deferred 2 }
      ({2} + (crowded.links.all : Multiset Nat)) ∧
    ∃ freed s', StoreM.allocate ⟨some 2, none, ()⟩ crowded.store
        = .error (.refused (.capacityExceeded crowded.store.limit)) s' ∧
      crowded.store.Returns freed s' ∧ ∀ i, i ∈ [0, 1, 2] → i ∈ freed := by
  have hreclaims := reclaims_exactly (.inl served_crowded) (by decide +kernel)
  obtain ⟨freed, s', hrun, -, hreturns⟩ :=
    hreclaims.full (some 2) none () (by decide +kernel) (by decide +kernel)
  refine ⟨by decide +kernel, hreclaims, freed, s', hrun, hreturns, fun i hi => ?_⟩
  obtain rfl : final (StoreM.allocate ⟨some 2, none, ()⟩ crowded.store) = s' := congrArg final hrun
  have hgone : ∀ i ∈ [0, 1, 2], crowded.store.contains i ∧
      ¬ (final (StoreM.allocate ⟨some 2, none, ()⟩ crowded.store)).contains i := by
    decide +kernel
  exact (hreturns.mem_iff i).2 (hgone i hi)

/-! ## A slot that is taken back twice -/

/-- The last reference to a cell is dropped, and one is taken to its slot while that waits. -/
def retaken : Bench Unit :=
  [.allocate none none, .release [0], .retain 0].foldl (fun b cmd => final (execCell cmd b))
    (.new { reclamation := .deferred 3 })

theorem servedLive_retaken : ServedLive { reclamation := .deferred 3 } retaken {0} := by
  have hrun : ServedLive { reclamation := .deferred 3 } retaken _ :=
    (((ServedLive.start
    ).step (.allocate none none) (by decide +kernel) (by decide +kernel)
    ).step (.release [0]) (by decide +kernel) (by decide +kernel)
    ).step (.retain 0) (by decide +kernel) (by decide +kernel)
  exact hrun.cast (by decide +kernel)

/-- That reference is dropped too, and what waits is taken back. -/
def vacated : Bench Unit :=
  [.release [0], .collect].foldl (fun b cmd => final (execCell cmd b)) retaken

theorem servedLive_vacated : ServedLive { reclamation := .deferred 3 } vacated 0 := by
  have hrun : ServedLive { reclamation := .deferred 3 } vacated _ :=
    (servedLive_retaken.step (.release [0]) (by decide +kernel) (by decide +kernel)
    ).step .collect (by decide +kernel) (by decide +kernel)
  exact hrun.cast (by decide +kernel)

/-- To take references only to live slots is not enough where slots are taken back in batches.  The
slot of a cell goes on waiting when a reference is taken to it, and when that is dropped it waits
twice.  So it goes back twice, and the cell that is put there next is live in a slot that is
free. -/
theorem reclaims_twice :
    (ServedLive { reclamation := .deferred 3 } retaken {0} ∧
      retaken.store.alarms.countHigh = false ∧ retaken.store.refs 0 = 1 ∧
      retaken.store.retired.toList = [0] ∧
      ¬ retaken.store.Reclaims { reclamation := .deferred 3 }
        ({0} + (retaken.links.all : Multiset Nat))) ∧
    ServedLive { reclamation := .deferred 3 } vacated 0 ∧
      vacated.store.alarms.countHigh = false ∧ vacated.store.free.toList = [0, 0] ∧
    ∃ again, again = (final (execCell (.allocate none none) vacated)).store ∧
      again.contains 0 ∧ again.free.toList = [0] := by
  have hcount : retaken.store.refs 0 = 1 := by decide +kernel
  have hwaits : retaken.store.retired.toList = [0] := by decide +kernel
  refine ⟨⟨servedLive_retaken, by decide +kernel, hcount, hwaits, fun hreclaims => ?_⟩,
    servedLive_vacated, by decide +kernel, by decide +kernel, _, rfl, by decide +kernel,
    by decide +kernel⟩
  -- What waits should not be referred to, and slot 0 is.
  obtain ⟨-, -, hzero, -⟩ := hreclaims.keeps
  have hrefs : retaken.store.refs 0 = 0 := (hzero 0 (by simp [hwaits])).2
  rw [hcount] at hrefs
  exact absurd hrefs (by decide)

end Bench

end SharedForest
