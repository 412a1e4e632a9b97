/-
Splitting a subtree.

A split loses nothing and adds nothing: what is below, what was found and what is above make up
the entries again, whatever comparison has led the way (`Tree.entries_split`).  The parts are put
together by a chain of joins, each of which could add a level, and that none of them ends up
higher than the whole is `Tree.noLarger_split`.  Here both are told of the split that runs on the
store, next to what a search for the same key finds there: the split goes down the same path, so
the two agree even where keys are in no order at all.
-/
import SharedForest.Proofs.Joining

set_option autoImplicit false

namespace SharedForest

open Tree Alarmed Store Std

variable {K Q V T : Type}

namespace Tree

variable {aug : Augment K V T} {t : NodeTree K V T} {h : Nat}

/-- A part that is no larger than a weakly valid tree, in height and in number, is weakly valid. -/
theorem weaklyValid_part {x : NodeTree K V T} (ht : WeaklyValid aug t) (hx : NoLarger aug x t)
    (hn : x.count ≤ t.count) : WeaklyValid aug x ∧ x.height ≤ t.height := by
  obtain ⟨hc, m, hlev, hm⟩ := (hx t.height.toNat t.height.toNat_lt).1
    ⟨ht.cached, _, ht.level, Nat.le_refl _⟩
  have hvalid : WeaklyValid aug x := weaklyValid_iff.2 ⟨hc, ⟨m, hlev⟩, hn.trans_lt ht.count_lt⟩
  refine ⟨hvalid, ?_⟩
  rwa [UInt32.le_iff_toNat_le, hvalid.height_eq_level hlev]

/-- The parts of a weakly valid tree are weakly valid and no higher than it. -/
theorem weaklyValid_split (order : K → Ordering) (ht : WeaklyValid aug t) :
    (WeaklyValid aug (split aug order t).below ∧ (split aug order t).below.height ≤ t.height) ∧
      WeaklyValid aug (split aug order t).above ∧ (split aug order t).above.height ≤ t.height := by
  have hcount := count_split_le aug order t
  obtain ⟨hbelow, habove⟩ := noLarger_split aug order t
  exact ⟨weaklyValid_part ht hbelow (by omega), weaklyValid_part ht habove (by omega)⟩

/-- What is found is an entry at what is sought. -/
theorem eq_of_found (order : K → Ordering) (p : Placed (Node K V T)) :
    ∀ e ∈ (split aug order p.bare).found, order e.1 = .eq := by
  intro e he
  rw [found_split, Option.mem_def, Option.map_eq_some_iff] at he
  obtain ⟨x, hx, rfl⟩ := he
  exact (mem_of_seek hx).2

/-- A tree that fits below a red node can be painted black without growing over the height that it
fits in. -/
theorem Fits.level_blacken (ht : Fits aug t h) : ∃ m, Level (blacken aug t) m ∧ m ≤ h := by
  obtain ⟨-, a, hlev, ha, hb⟩ := ht
  cases hlev with
  | absent => exact ⟨0, .absent, ha⟩
  | red hc hl hr _ _ =>
    have hne : a ≠ h := by
      intro hah
      simp [isRed_node_of_red hc] at hb
      exact hb hah
    exact ⟨a + 1, (SharedForest.Tree.level_blacken aug hc hl hr).1, by omega⟩
  | black hc hl hr =>
    rw [blacken, paint, if_pos hc]
    exact ⟨_, .black hc hl hr, ha⟩

end Tree

namespace Forest

variable {f f' : Forest K V T} {c : Config} {F : Multiset (Placed (Node K V T))}
  {p : Placed (Node K V T)} {t : Snapshot}

/-- Neither of two trees is higher than a third one. -/
def Lower (f : Forest K V T) (t : Snapshot) (f' : Forest K V T) (below above : Snapshot) : Prop :=
  ∃ h a b, f.blackHeight t = .ok h ∧ f'.blackHeight below = .ok a ∧
    f'.blackHeight above = .ok b ∧ a ≤ h ∧ b ≤ h

/-- Both handles that come of a split are on trees no higher than the one that was split. -/
theorem lower_of_split [Ord Q] [KeyView K Q] (key : Q) {below above : Snapshot} {found : Option V}
    (hsound : f.store.Sound c F) (hp : p ∈ F) (ht : t.root = p.root)
    (hbalanced : Balanced f.augment p.bare) (hrun : split t key f = .ok (below, found, above) f')
    (hquiet : ¬ Rung f') : Lower f t f' below above := by
  have hspec := split_spec key hsound hp ht
  rw [hrun] at hspec
  obtain ⟨-, -, -, x, y, hx, hx', hy, hy', hholds⟩ := hspec hquiet
  have hdepth := (kept_of_mem hsound hp).depth_lt
  obtain ⟨h, hlev⟩ := hbalanced.level
  have hh : h < 4294967296 := Nat.lt_of_le_of_lt (level_le_depth hlev) hdepth
  have hfits : Fits f.augment p.bare h :=
    ⟨hbalanced.cached, h, hlev, Nat.le_refl h, fun _ => hbalanced.black⟩
  obtain ⟨hlow, hhigh⟩ := noLarger_split f.augment (sought key) p.bare
  obtain ⟨a, ha, hah⟩ := ((hlow h hh).2 hfits).level_blacken
  obtain ⟨b, hb, hbh⟩ := ((hhigh h hh).2 hfits).level_blacken
  obtain ⟨hbx, hby⟩ := balanced_split (sought key) hbalanced hdepth
  rw [← hx', ← hholds.augment] at hbx
  rw [← hy', ← hholds.augment] at hby
  rw [← hx'] at ha
  rw [← hy'] at hb
  exact ⟨h - 1, a - 1, b - 1, blackHeight_eq (hsound.unfolds hp) ht hbalanced hlev hh,
    blackHeight_eq (hholds.sound.unfolds (by simp)) hx.symm hbx ha (by omega),
    blackHeight_eq (hholds.sound.unfolds (by simp)) hy.symm hby hb (by omega), by omega, by omega⟩

end Forest

namespace Subtree

variable [Ord Q] [KeyView K Q]

/-- What a split of `p` at `key` leaves: two subtrees that are weakly valid and no higher, and in
between the entry that was found, if one was. -/
structure Partitions (aug : Augment K V T) (p : Placed (Node K V T)) (key : Q) (parts : Parts V)
    (l r : Placed (Node K V T)) : Prop where
  below : parts.below = l.root ∧ WeaklyValid aug l.bare ∧ l.bare.height ≤ p.bare.height
  above : parts.above = r.root ∧ WeaklyValid aug r.bare ∧ r.bare.height ≤ p.bare.height
  entries : ∃ m : Option (K × V), parts.found = m.map (·.2) ∧
    p.bare.entries = l.bare.entries ++ m.toList ++ r.bare.entries ∧
    ∀ e ∈ m, compare key (KeyView.view e.1) = .eq

/-- The law of splits.  The first part is about weakly valid subtrees and any comparison, the second
about lawful ones and keys in order, and the third about handles. -/
theorem split_partitions [Ord K] (aug : Augment K V T) :
    (∀ (s : NodeStore K V T) (c : Config) (F : Multiset (Placed (Node K V T)))
      (p : Placed (Node K V T)) (key : Q), s.Sound c (F + {p}) → WeaklyValid aug p.bare →
      Ends (split aug p.root key s) (fun parts s' => ∃ l r, s'.Sound c (F + {l} + {r}) ∧
        Partitions aug p key parts l r ∧
        (∃ slot, find s p.root key = .ok slot ∧ (parts.found.isSome ↔ slot.isSome)) ∧
        ∀ [TransOrd K] [TransOrd Q] [LawfulView K Q], Increasing p.bare.entries →
          l.bare.entries = entriesBelow key p.bare.entries ∧
            r.bare.entries = entriesAbove key p.bare.entries) (Short c F)) ∧
    ∀ (configs : List Config) (sort : List (K × V) → List (K × V)) (s : Session K V T)
      (t below above : Snapshot) (found : Option V) (f f' : Forest K V T) (key : Q),
      s.Reached Q sort aug configs → t ∈ s.handles → s.forests[t.forest]? = some f →
      f.split t key = .ok (below, found, above) f' → f'.store.alarms.countHigh = false →
      Forest.Lower f t f' below above := by
  refine ⟨?_, ?_⟩
  · intro s c F p key hsound hp
    have hfind := find_spec key hsound hsound.unfolds_last
    obtain ⟨⟨hbelow, hlow⟩, habove, hhigh⟩ := weaklyValid_split (sought key) hp
    refine (split_spec aug key hsound).weaken fun parts s' hhalved => ?_
    obtain ⟨l, r, rfl, hl, hr, h'⟩ := hhalved
    refine ⟨l, r, h', ⟨⟨rfl, ?_⟩, ⟨rfl, ?_⟩, _, rfl, ?_, ?_⟩, ⟨_, hfind, ?_⟩, ?_⟩
    · rw [hl]
      exact ⟨hbelow, hlow⟩
    · rw [hr]
      exact ⟨habove, hhigh⟩
    · rw [hl, hr]
      exact (entries_split aug (sought key)).symm
    · exact eq_of_found (sought key) p
    -- The split and the search have gone the same way.
    · rw [Option.isSome_map, Option.isSome_map, found_split, Option.isSome_map]
    · intro _ _ _ hincreasing
      obtain ⟨hb, -, ha⟩ := split_of_increasing aug (cut_sought key) hincreasing
      rw [hl, hr, hb, ha]
      exact ⟨filter_sought_gt key _, filter_sought_lt key _⟩
  · intro configs sort s t below above found f f' key hreached ht hf hrun hquiet
    have htidy := hreached.tidy (closed_balanced (Q := Q) aug)
    obtain ⟨-, rfl, c, F, -, hsound, hall, hF⟩ := htidy.exists_books hf
    obtain ⟨p, hp, hroot⟩ := Forest.exists_tree hF (t := t) (by simpa using ht)
    exact Forest.lower_of_split key hsound hp hroot (hall p hp) hrun
      (by simpa [Rung] using hquiet)

open Session in
theorem split_partitions_shortRun : ∃ f c F p, shortRun.forests[0]? = some f ∧
    f.store.Sound c (F + {p}) ∧ WeaklyValid .sum p.bare ∧ Increasing p.bare.entries ∧
    Ends (split .sum (some 3) 2 f.store) (fun parts s' => ∃ l r, s'.Sound c (F + {l} + {r}) ∧
      Partitions .sum p 2 parts l r ∧
      (∃ slot, find f.store (some 3) 2 = .ok slot ∧ (parts.found.isSome ↔ slot.isSome)) ∧
      l.bare.entries = entriesBelow 2 p.bare.entries ∧
      r.bare.entries = entriesAbove 2 p.bare.entries) (Short c F) ∧
    ∃ below found above f', f.split ⟨0, some 3, 2⟩ 2 = .ok (below, found, above) f' ∧
      Forest.Lower f ⟨0, some 3, 2⟩ f' below above := by
  classical
  have htidy := reached_shortRun.tidy (closed_valid (Q := Nat) .sum)
  obtain ⟨f, hf⟩ := Option.isSome_iff_exists.1
    (show (shortRun.forests[0]?).isSome by decide +kernel)
  obtain ⟨-, -, c, F, -, hsound, hall, hF⟩ := htidy.exists_books hf
  have hmem : (⟨0, some 3, 2⟩ : Snapshot) ∈ shortRun.handles := by decide +kernel
  obtain ⟨p, hp, hroot⟩ := Forest.exists_tree hF (t := ⟨0, some 3, 2⟩) (by simpa using hmem)
  have hroot : some 3 = p.root := hroot
  obtain ⟨hsplit, hlower⟩ := split_partitions (Q := Nat) (K := Nat) (V := Int64) .sum
  have hrest : F = F.erase p + {p} := by
    rw [add_comm, Multiset.singleton_add, Multiset.cons_erase hp]
  have hbooks := hsound.cast hrest
  have hvalid := hall p hp
  have hcount := Store.count_lt_of_unfolds hsound (hsound.unfolds hp) hvalid.increasing
  have hweak := hvalid.balanced.weaklyValid (by rwa [count_bare])
  have hparts := hsplit f.store c (F.erase p) p 2 hbooks hweak
  rw [← hroot] at hparts
  refine ⟨f, c, F.erase p, p, hf, hbooks, hweak, hvalid.increasing, hparts.weaken ?_, ?_⟩
  · rintro parts s' ⟨l, r, h', hpartitions, hfind, hlawful⟩
    exact ⟨l, r, h', hpartitions, hfind, hlawful hvalid.increasing⟩
  have hruns : ∀ f ∈ shortRun.forests[0]?, (match f.split ⟨0, some 3, 2⟩ 2 with
      | .ok _ f' => !f'.store.alarms.countHigh
      | .error _ _ => false) = true := by decide +kernel
  have hrun := hruns f hf
  cases hres : f.split ⟨0, some 3, 2⟩ 2 with
  | ok res f' =>
    obtain ⟨below, found, above⟩ := res
    rw [hres] at hrun
    exact ⟨below, found, above, f', rfl, hlower _ _ shortRun _ _ _ _ f f' 2 reached_shortRun hmem
      hf hres (by simpa using hrun)⟩
  | error e f' =>
    rw [hres] at hrun
    cases hrun

end Subtree

end SharedForest
