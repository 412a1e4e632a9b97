/-
The same request to two forests.

What a forest answers depends on the trees of the operands and on nothing else: not on the
slots they are kept in, not on what else is kept, not on how many snapshots have been made
or how retired places are taken back.  For the plain answer that is a matter of what the
function can see at all, and it is put as a relation between requests that carries over to
the answers (`plain_alike`), whatever is taken for the relation between two figures, as long
as related figures have the same tree.  The relation is left open because there are three
uses for it: figures with the same tree, figures that also are of the same forest, and
figures that are equal.
-/
import SharedForest.Proofs.Atomicity

set_option autoImplicit false

namespace SharedForest

open Store Alarmed

variable {γ K Q V T τ σ τ' σ' : Type}

/-! ## Requests and answers that differ in their trees only -/

namespace Reply

variable {R : τ → σ → Prop}

/-- The same answer but for the trees, which are related. -/
inductive Alike (R : τ → σ → Prop) : Reply V γ τ → Reply V γ σ → Prop where
  | tree {t : τ} {u : σ} (h : R t u) : Alike R (.tree t) (.tree u)
  | taken {t : τ} {u : σ} (h : R t u) (value : V) : Alike R (.taken t value) (.taken u value)
  | parts {l r : τ} {l' r' : σ} (below : R l l') (found : Option V) (above : R r r') :
      Alike R (.parts l found r) (.parts l' found r')
  | united {t : τ} {u : σ} (h : R t u) (state : γ) : Alike R (.united t state) (.united u state)

/-- Answers that are alike after a map were alike before it, in whatever sense the map reflects. -/
theorem Alike.of_map {g : τ' → τ} {g' : σ' → σ} {S : τ' → σ' → Prop} {r : Reply V γ τ'}
    {r' : Reply V γ σ'} (h : Alike R (r.map g) (r'.map g'))
    (hS : ∀ t ∈ r.trees, ∀ u ∈ r'.trees, R (g t) (g' u) → S t u) : Alike S r r' := by
  cases r <;> cases r' <;> cases h
  case tree.tree.tree h => exact .tree (hS _ (by simp [trees]) _ (by simp [trees]) h)
  case taken.taken.taken h => exact .taken (hS _ (by simp [trees]) _ (by simp [trees]) h) _
  case parts.parts.parts hl hr =>
    exact .parts (hS _ (by simp [trees]) _ (by simp [trees]) hl) _
      (hS _ (by simp [trees]) _ (by simp [trees]) hr)
  case united.united.united h => exact .united (hS _ (by simp [trees]) _ (by simp [trees]) h) _

/-- Answers with equal trees are equal. -/
theorem eq_of_alike {r r' : Reply V γ τ} (h : Alike Eq r r') : r = r' := by
  cases h
  case tree h => rw [h]
  case taken h value => rw [h]
  case parts hl found hr => rw [hl, hr]
  case united h state => rw [h]

/-- The trees of two such answers are related one by one. -/
theorem Alike.trees {r : Reply V γ τ} {r' : Reply V γ σ} (h : Alike R r r') :
    List.Forall₂ R r.trees r'.trees := by
  cases h
  case tree h => exact .cons h .nil
  case taken h value => exact .cons h .nil
  case parts hl found hr => exact .cons hl (.cons hr .nil)
  case united h state => exact .cons h .nil

end Reply

namespace Request

/-- The same request but for the trees; hosts are related by `R`, and guests by `S`. -/
inductive Alike (R S : τ → σ → Prop) : Request K V Q γ τ → Request K V Q γ σ → Prop where
  | empty : Alike R S .empty .empty
  | ofSorted (items : List (K × V)) : Alike R S (.ofSorted items) (.ofSorted items)
  | ofEntries (items : List (K × V)) : Alike R S (.ofEntries items) (.ofEntries items)
  | insert {t : τ} {u : σ} (h : R t u) (k : K) (v : V) : Alike R S (.insert t k v) (.insert u k v)
  | remove {t : τ} {u : σ} (h : R t u) (key : Q) : Alike R S (.remove t key) (.remove u key)
  | tryRemove {t : τ} {u : σ} (h : R t u) (key : Q) :
      Alike R S (.tryRemove t key) (.tryRemove u key)
  | split {t : τ} {u : σ} (h : R t u) (key : Q) : Alike R S (.split t key) (.split u key)
  | join {l r : τ} {l' r' : σ} (h : R l l') (k : K) (v : V) (h' : S r r') :
      Alike R S (.join l k v r) (.join l' k v r')
  | concat {l r : τ} {l' r' : σ} (h : R l l') (h' : S r r') :
      Alike R S (.concat l r) (.concat l' r')
  | union {a b : τ} {a' b' : σ} (h : R a a') (h' : S b b') (merge : K → V → V → γ → V × γ)
      (state : γ) : Alike R S (.union a b merge state) (.union a' b' merge state)
  | copy {t : τ} {u : σ} (h : R t u) : Alike R S (.copy t) (.copy u)

variable {R S : τ → σ → Prop} {R' S' : τ' → σ' → Prop}

/-- Requests that are alike stay so when the operands are replaced by related ones. -/
theorem Alike.map {q : Request K V Q γ τ} {q' : Request K V Q γ σ} (h : q.Alike R S q')
    {g : τ → τ'} {g' : σ → σ'} (hR : ∀ t ∈ q.host?, ∀ u ∈ q'.host?, R t u → R' (g t) (g' u))
    (hS : ∀ t ∈ q.guest?, ∀ u ∈ q'.guest?, S t u → S' (g t) (g' u)) :
    (q.map g).Alike R' S' (q'.map g') := by
  cases h
  case empty => exact .empty
  case ofSorted items => exact .ofSorted items
  case ofEntries items => exact .ofEntries items
  case insert h k v => exact .insert (hR _ rfl _ rfl h) k v
  case remove h key => exact .remove (hR _ rfl _ rfl h) key
  case tryRemove h key => exact .tryRemove (hR _ rfl _ rfl h) key
  case split h key => exact .split (hR _ rfl _ rfl h) key
  case join h k v h' => exact .join (hR _ rfl _ rfl h) k v (hS _ rfl _ rfl h')
  case concat h h' => exact .concat (hR _ rfl _ rfl h) (hS _ rfl _ rfl h')
  case union h h' merge state => exact .union (hR _ rfl _ rfl h) (hS _ rfl _ rfl h') merge state
  case copy h => exact .copy (hR _ rfl _ rfl h)

theorem alike_refl (q : Request K V Q γ τ) : q.Alike Eq Eq q := by
  cases q <;> constructor <;> rfl

/-! ## The plain answer -/

/-- The same refusal, or the same answer but for the trees, for which equally many numbers have
been used up. -/
inductive Agree (R : Figure K V T → Figure K V T → Prop) (next next' : Nat) :
    Except Refusal (Reply V γ (Figure K V T) × Nat) →
    Except Refusal (Reply V γ (Figure K V T) × Nat) → Prop where
  | error (why : Refusal) : Agree R next next' (.error why) (.error why)
  | ok {r r' : Reply V γ (Figure K V T)} (h : r.Alike R r') (used : Nat) :
      Agree R next next' (.ok (r, next + used)) (.ok (r', next' + used))

/-- Two answers that agree are alike. -/
theorem Agree.alike {R : Figure K V T → Figure K V T → Prop} {next next' n n' : Nat}
    {r r' : Reply V γ (Figure K V T)} (h : Agree R next next' (.ok (r, n)) (.ok (r', n'))) :
    r.Alike R r' := by
  cases h
  assumption

/-- Where trees and numbers are equal, so is all the rest. -/
theorem eq_of_agree {next : Nat} {x y : Except Refusal (Reply V γ (Figure K V T) × Nat)}
    (h : Agree Eq next next x y) : x = y := by
  cases h
  case error why => rfl
  case ok r r' h used => rw [Reply.eq_of_alike h]

/-- An answer does not go together with a refusal. -/
theorem not_agree {R : Figure K V T → Figure K V T → Prop} {next next' : Nat} {why : Refusal}
    {x : Reply V γ (Figure K V T) × Nat} :
    ¬ Agree R next next' (.ok x) (.error why) ∧ ¬ Agree R next next' (.error why) (.ok x) := by
  constructor <;> intro h <;> cases h

section

variable [Ord K] [Ord Q] [KeyView K Q] (aug : Augment K V T)
  (sort : List (K × V) → List (K × V)) {home home' next next' : Nat}
  {R S : Figure K V T → Figure K V T → Prop} {q q' : Request K V Q γ (Figure K V T)}

/-- A list is built into a tree without a look at anything that is there. -/
theorem agree_built (hfresh : ∀ i tree,
      R (.fresh home (next + i) tree) (.fresh home' (next' + i) tree)) (items : List (K × V)) :
    Agree R next next' (γ := γ) (built aug home next items) (built aug home' next' items) := by
  rw [built, built]
  cases Forest.firstDisorder items 0 with
  | some p => exact .error _
  | none => exact .ok (.tree (hfresh 0 _)) 1

/-- The plain answer does not tell related figures apart. -/
theorem plain_alike (hq : q.Alike R S q') (hR : ∀ x y, R x y → x.tree = y.tree)
    (hS : ∀ x y, S x y → (x.forest = home ↔ y.forest = home') ∧
      (x.forest = home → x.tree = y.tree))
    (hfresh : ∀ i tree, R (.fresh home (next + i) tree) (.fresh home' (next' + i) tree)) :
    Agree R next next' (q.plain aug sort home next) (q'.plain aug sort home' next') := by
  -- Most answers are a new snapshot; a figure is told apart by its forest only where a tree of
  -- another forest is refused.
  have hmade : ∀ tree, Agree (γ := γ) R next next' (.ok (made home next tree))
      (.ok (made home' next' tree)) := fun tree => .ok (.tree (hfresh 0 tree)) 1
  cases hq
  case empty => exact hmade .absent
  case ofSorted items => exact agree_built aug hfresh items
  case ofEntries items => exact agree_built aug hfresh _
  case insert t u h k v =>
    rw [plain, plain, hR t u h]
    exact hmade _
  case remove t u h key =>
    rw [plain, plain, hR t u h]
    obtain ⟨rest, found⟩ := u.tree.remove aug (sought key)
    cases found with
    | none => exact .ok (.tree h) 0
    | some v => exact hmade rest
  case tryRemove t u h key =>
    rw [plain, plain, hR t u h]
    obtain ⟨rest, found⟩ := u.tree.remove aug (sought key)
    cases found with
    | none => exact .error _
    | some v => exact .ok (.taken (hfresh 0 rest) v) 1
  case split t u h key =>
    rw [plain, plain, hR t u h]
    exact .ok (.parts (hfresh 0 _) _ (hfresh 1 _)) 2
  case join l r l' r' h k v h' =>
    obtain ⟨hiff, htree⟩ := hS _ _ h'
    rw [plain, plain, hR _ _ h]
    by_cases hown : r.forest = home
    · rw [if_neg (not_not.2 hown), if_neg (not_not.2 (hiff.1 hown)), htree hown]
      split
      · exact .error _
      · split
        · exact .error _
        · exact hmade _
    · rw [if_pos hown, if_pos (mt hiff.2 hown)]
      exact .error _
  case concat l r l' r' h h' =>
    obtain ⟨hiff, htree⟩ := hS _ _ h'
    rw [plain, plain, hR _ _ h]
    by_cases hown : r.forest = home
    · rw [if_neg (not_not.2 hown), if_neg (not_not.2 (hiff.1 hown)), htree hown]
      split
      · exact .error _
      · exact hmade _
    · rw [if_pos hown, if_pos (mt hiff.2 hown)]
      exact .error _
  case union a b a' b' h h' merge state =>
    obtain ⟨hiff, htree⟩ := hS _ _ h'
    rw [plain, plain, hR _ _ h]
    by_cases hown : b.forest = home
    · rw [if_neg (not_not.2 hown), if_neg (not_not.2 (hiff.1 hown)), htree hown]
      exact .ok (.united (hfresh 0 _) _) 1
    · rw [if_pos hown, if_pos (mt hiff.2 hown)]
      exact .error _
  case copy t u h => exact .ok (.tree h) 0

end

end Request

/-! ## Two forests -/

/-- There was no place left. -/
def Failure.exceeds : Failure → Bool
  | .refused (.capacityExceeded _) => true
  | _ => false

namespace Forest

variable {c c₁ c₂ : Config} {F F₁ F₂ : Multiset (Placed (Node K V T))}
  {H L H₁ H₂ : Multiset Snapshot} {f f' f₁ f₂ : Forest K V T} {t u : Snapshot}
  {tree : NodeTree K V T} {P : NodeTree K V T → Prop}

/-- What the snapshot unfolds to: the tree below its root, without the slots. -/
def Looks (f : Forest K V T) (t : Snapshot) (tree : NodeTree K V T) : Prop :=
  ∃ p : Placed (Node K V T), p.root = t.root ∧ f.store.Unfolds p ∧ p.bare = tree

/-- Two snapshots, one of each forest, that unfold to the same tree. -/
def Same (f₁ f₂ : Forest K V T) (t u : Snapshot) : Prop :=
  ∃ tree, f₁.Looks t tree ∧ f₂.Looks u tree

/-- Two snapshots that are both of the forest they are shown to, and then unfold to the same tree,
or neither is. -/
def SameOrForeign (f₁ f₂ : Forest K V T) (t u : Snapshot) : Prop :=
  (t.forest = f₁.id ↔ u.forest = f₂.id) ∧ (t.forest = f₁.id → Same f₁ f₂ t u)

/-- A snapshot that looks like a tree has it for its figure. -/
theorem tree_of_looks (h : f.store.Sound c F) (ht : f.Looks t tree) :
    (f.figure t).tree = tree := by
  obtain ⟨p, hroot, hp, rfl⟩ := ht
  rw [figure_eq h hp hroot]

/-- Snapshots that look the same in two forests have figures with the same tree. -/
theorem tree_eq_of_same (h₁ : f₁.store.Sound c₁ F₁) (h₂ : f₂.store.Sound c₂ F₂)
    (h : Same f₁ f₂ t u) : (f₁.figure t).tree = (f₂.figure u).tree := by
  obtain ⟨tree, ht, hu⟩ := h
  rw [tree_of_looks h₁ ht, tree_of_looks h₂ hu]

/-- A snapshot that has been made unfolds to its figure. -/
theorem Advance.looks (h : Advance f c P H L f') (ht : t ∈ L) :
    f'.Looks t (f'.figure t).tree := by
  obtain ⟨F, hF, hsound, -⟩ := h.backs
  obtain ⟨p, hp, hroot⟩ := exists_tree hF (Multiset.mem_add.2 (.inr ht))
  exact ⟨p, hroot.symm, hsound.unfolds hp, by rw [figure_eq hsound (hsound.unfolds hp) hroot.symm]⟩

/-- The action has failed because there was no place left. -/
def exceeded {α : Type} : EStateM.Result Failure (Forest K V T) α → Bool
  | .error e _ => e.exceeds
  | .ok _ _ => false

/-- The same refusal, or the same answer but for snapshots that unfold to the same trees. -/
inductive SameEnd : EStateM.Result Failure (Forest K V T) (Reply V γ Snapshot) →
    EStateM.Result Failure (Forest K V T) (Reply V γ Snapshot) → Prop where
  | error (e : Failure) (f₁ f₂ : Forest K V T) : SameEnd (.error e f₁) (.error e f₂)
  | ok {r₁ r₂ : Reply V γ Snapshot} {f₁ f₂ : Forest K V T} (h : r₁.Alike (Same f₁ f₂) r₂) :
      SameEnd (.ok r₁ f₁) (.ok r₂ f₂)

section

variable [Ord K] [Ord Q] [KeyView K Q] {sort : List (K × V) → List (K × V)}

/-- With place enough, a forest answers as the plain answer says, or refuses as it does. -/
theorem ends_of_fares {q : Request K V Q γ Snapshot} (h : Fares sort f c F H q)
    (hquiet : ¬ Rung (final (q.run sort f))) (hroom : exceeded (q.run sort f) = false) :
    (∃ r f', q.run sort f = .ok r f' ∧ Answers sort f c H q r f') ∨
      ∃ why f', q.run sort f = .error (.refused why) f' ∧
        (q.map f.figure).plain f.augment sort f.id f.derived = .error why := by
  rw [Fares] at h
  cases hr : q.run sort f with
  | ok r f' =>
    rw [hr] at h hquiet
    exact .inl ⟨r, f', rfl, h hquiet⟩
  | error e f' =>
    rw [hr] at h hquiet hroom
    obtain ⟨rfl | ⟨why, rfl, hplain⟩, -⟩ := h hquiet
    · cases hroom
    · exact .inr ⟨why, f', rfl, hplain⟩

/-- Two forests with one augmentation answer alike to requests with the same trees, if there is
place. -/
theorem sameEnd_of_alike (hF₁ : F₁.map Tree.root = H₁.map Snapshot.root)
    (h₁ : f₁.store.Sound c₁ F₁) (hF₂ : F₂.map Tree.root = H₂.map Snapshot.root)
    (h₂ : f₂.store.Sound c₂ F₂) (haug : f₂.augment = f₁.augment)
    {q₁ q₂ : Request K V Q γ Snapshot} (hq₁ : q₁.Posed f₁ H₁) (hq₂ : q₂.Posed f₂ H₂)
    (hq : q₁.Alike (Same f₁ f₂) (SameOrForeign f₁ f₂) q₂)
    (hquiet₁ : ¬ Rung (final (q₁.run sort f₁))) (hquiet₂ : ¬ Rung (final (q₂.run sort f₂)))
    (hroom₁ : exceeded (q₁.run sort f₁) = false) (hroom₂ : exceeded (q₂.run sort f₂) = false) :
    SameEnd (q₁.run sort f₁) (q₂.run sort f₂) := by
  have hplain : Request.Agree (fun x y => x.tree = y.tree) f₁.derived f₂.derived
      ((q₁.map f₁.figure).plain f₁.augment sort f₁.id f₁.derived)
      ((q₂.map f₂.figure).plain f₂.augment sort f₂.id f₂.derived) := by
    rw [haug]
    refine Request.plain_alike (S := fun x y => (x.forest = f₁.id ↔ y.forest = f₂.id) ∧
      (x.forest = f₁.id → x.tree = y.tree)) f₁.augment sort (hq.map ?_ ?_) (fun _ _ h => h)
      (fun _ _ h => h) fun _ _ => rfl
    · exact fun t _ u _ hsame => tree_eq_of_same h₁ h₂ hsame
    · exact fun t _ u _ ⟨hiff, hsame⟩ => ⟨hiff, fun hown => tree_eq_of_same h₁ h₂ (hsame hown)⟩
  -- Both sides answer as the plain answers say, and those agree; so the mixed cases are not there.
  rcases ends_of_fares (fares hF₁ h₁ q₁ hq₁) hquiet₁ hroom₁ with
    ⟨r₁, f₁', hr₁, hok₁, hadv₁⟩ | ⟨why₁, f₁', hr₁, hno₁⟩ <;>
  rcases ends_of_fares (fares hF₂ h₂ q₂ hq₂) hquiet₂ hroom₂ with
    ⟨r₂, f₂', hr₂, hok₂, hadv₂⟩ | ⟨why₂, f₂', hr₂, hno₂⟩
  · rw [hok₁, hok₂] at hplain
    rw [hr₁, hr₂]
    refine .ok (hplain.alike.of_map fun t ht u hu htree => ⟨_, hadv₁.looks ?_, ?_⟩)
    · exact Multiset.mem_coe.2 ht
    · rw [htree]
      exact hadv₂.looks (Multiset.mem_coe.2 hu)
  · rw [hok₁, hno₂] at hplain
    exact absurd hplain Request.not_agree.1
  · rw [hno₁, hok₂] at hplain
    exact absurd hplain Request.not_agree.2
  · rw [hno₁, hno₂] at hplain
    rw [hr₁, hr₂]
    cases hplain
    exact .error _ _ _

end

end Forest

end SharedForest
