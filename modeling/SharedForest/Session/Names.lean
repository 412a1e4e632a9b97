/-
Things kept under names.

A name holds one thing at a time.  Putting something under a name that is taken
hands the earlier thing back, because somebody has to give it up.
-/
set_option autoImplicit false

namespace SharedForest

/-- Things by name. -/
structure Names (α : Type) where
  pairs : List (String × α) := []

namespace Names

variable {α : Type}

/-- What is kept under a name. -/
def get? (n : Names α) (name : String) : Option α := n.pairs.lookup name

/-- Nothing under `name`, everything else as before. -/
def erase (n : Names α) (name : String) : Names α := ⟨n.pairs.filter (·.1 != name)⟩

/-- Keep `a` under `name`. -/
def put (n : Names α) (name : String) (a : α) : Names α := ⟨(name, a) :: (n.erase name).pairs⟩

/-- All that is kept. -/
def all (n : Names α) : List α := n.pairs.map (·.2)

/-- Nothing is left under a name that was erased. -/
theorem get?_erase_self (n : Names α) (name : String) : (n.erase name).get? name = none := by
  simp only [get?, erase, List.lookup_eq_none_iff, List.mem_filter]
  rintro ⟨key, a⟩ ⟨_, hne⟩
  have hkey : key ≠ name := by simpa using hne
  exact bne_iff_ne.2 (Ne.symm hkey)

/-- The thing last put under a name is the one that is kept there. -/
@[simp] theorem get?_put_self (n : Names α) (name : String) (a : α) :
    (n.put name a).get? name = some a := by
  simp [get?, put]

/-- Other names keep what they have. -/
theorem get?_erase_other (n : Names α) {name other : String} (h : other ≠ name) :
    (n.erase name).get? other = n.get? other := by
  obtain ⟨pairs⟩ := n
  simp only [get?, erase]
  induction pairs with
  | nil => rfl
  | cons p rest ih =>
    obtain ⟨key, a⟩ := p
    by_cases hkey : key = name
    · subst hkey
      have hne : (other == key) = false := by simpa using h
      simp [List.lookup_cons, hne, ih]
    · simp [List.lookup_cons, hkey, ih]

theorem get?_put_other (n : Names α) {name other : String} (a : α) (h : other ≠ name) :
    (n.put name a).get? other = n.get? other := by
  have : (other == name) = false := by simpa using h
  rw [← get?_erase_other n h]
  simp [get?, put, List.lookup_cons, this]

end Names

end SharedForest
