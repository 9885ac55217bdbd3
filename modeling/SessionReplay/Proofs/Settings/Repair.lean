import Mathlib.Data.List.Forall2
import SessionReplay.Proofs.Settings.Names

/-!
# Repaired settings

A settings file may hold values that cannot be worked with. A repair replaces them and keeps all
others, and then there is nothing left to do, even though an interval in its former place is taken
from there each time: `Settings.repairsTo_repair`.

## The flag of a repair

Every repair but the first one looks at what it replaces, and finds something to do exactly if that
changes something, `Settings.Mends`. Each has a setting of its own, so none of them takes back what
another one did, `Settings.forall_mends_eq_iff`, and the flag that they raise tells of a change. The
first one takes the interval from its former place without a look at the interval that is there. So
the flag is also raised if both are the same: `Settings.repair_flag_iff`, and
`Settings.not_tellsChange_formerFile` for a file with the usual interval.
-/

namespace SessionReplay

namespace Settings

/-! ## One setting -/

/-- An interval, or the usual one in place of nothing. -/
def usableTick (tick : Nat) : Nat := if tick = 0 then defaultTick else tick

/-- A sentinel without blanks around it, or the usual one in place of blanks. -/
def usableSentinel (sentinel : String) : String :=
  if Text.trim sentinel = "" then Options.defaultSentinel else Text.trim sentinel

/-- A format, or text in place of an unknown one. -/
def usableFormat (format : FormatSetting) : FormatSetting :=
  if format = .unknown then .text else format

/-- A filter, or the usual one in place of blanks. -/
def usableFilter (filter : String) : String :=
  if Text.trim filter = "" then defaultFilter else filter

variable {tick : Nat} {text : String} {format : FormatSetting}

private theorem one_le_usableTick (tick : Nat) : 1 ≤ usableTick tick := by
  rw [usableTick]
  split
  · decide
  · omega

theorem usableTick_of_pos (h : 1 ≤ tick) : usableTick tick = tick := if_neg (by omega)

private theorem trim_usableSentinel (text : String) :
    Text.trim (usableSentinel text) = usableSentinel text := by
  rw [usableSentinel]
  split
  · rfl
  · exact Text.trim_trim text

theorem usableSentinel_ne_empty (text : String) : usableSentinel text ≠ "" := by
  rw [usableSentinel]
  split
  · decide
  · assumption

theorem usableSentinel_of_not_blank (h : Text.trim text ≠ "") :
    usableSentinel text = Text.trim text := if_neg h

private theorem usableSentinel_of_trimmed (h : Text.trim text ≠ "")
    (htrim : Text.trim text = text) :
    usableSentinel text = text := by
  rw [usableSentinel_of_not_blank h, htrim]

private theorem usableFormat_eq (format : FormatSetting) :
    usableFormat format = .text ∨ usableFormat format = .json := by
  cases format <;> decide

private theorem usableFormat_of_ne_unknown (h : format ≠ .unknown) :
    usableFormat format = format := if_neg h

private theorem usableFormat_of_known (h : format = .text ∨ format = .json) :
    usableFormat format = format := by
  rcases h with rfl | rfl <;> rfl

theorem trim_usableFilter_ne_empty (text : String) : Text.trim (usableFilter text) ≠ "" := by
  rw [usableFilter]
  split
  · decide
  · assumption

theorem usableFilter_of_not_blank (h : Text.trim text ≠ "") : usableFilter text = text := if_neg h

/-! ## One repair -/

/-- Settings with a usable interval. -/
def mendTick (s : Settings) : Settings := { s with tickInterval := usableTick s.tickInterval }

/-- Settings with a usable sentinel. -/
def mendSentinel (s : Settings) : Settings := { s with sentinel := usableSentinel s.sentinel }

/-- Settings with clean names of delegating tools. -/
def mendTools (s : Settings) : Settings :=
  { s with delegationTools := cleanNames s.delegationTools }

/-- Settings with clean argument names. -/
def mendKeys (s : Settings) : Settings := { s with targetKeys := cleanNames s.targetKeys }

/-- Settings with a usable format. -/
def mendFormat (s : Settings) : Settings := { s with format := usableFormat s.format }

/-- Settings with a usable filter. -/
def mendFilter (s : Settings) : Settings := { s with filter := usableFilter s.filter }

/-- A repair does what a function does, and finds nothing to do exactly if that changes nothing. -/
def Mends (repair : Settings → Option Settings) (mend : Settings → Settings) : Prop :=
  ∀ s, repair s = if mend s = s then none else some (mend s)

private theorem mends_repairTick : Mends repairTick mendTick := by
  rintro ⟨_, _, _, tick, _, _⟩
  simp only [repairTick, mendTick, mk.injEq, true_and, and_true]
  by_cases h : tick = 0
  · rw [if_pos h, usableTick, if_pos h, if_neg]
    rintro rfl
    exact absurd h (by decide)
  · rw [if_neg h, usableTick, if_neg h, if_pos rfl]

private theorem mends_repairSentinel : Mends repairSentinel mendSentinel := by
  rintro ⟨sentinel, _, _, _, _, _⟩
  simp only [repairSentinel, mendSentinel, Text.nonBlank?, mk.injEq, and_true]
  by_cases h : Text.trim sentinel = ""
  · rw [if_pos h, usableSentinel, if_pos h, if_neg]
    rintro rfl
    exact absurd h (by decide)
  · rw [if_neg h, usableSentinel, if_neg h]

private theorem mends_repairTools : Mends repairTools mendTools := by
  rintro ⟨_, _, _, _, _, _⟩
  simp only [repairTools, mendTools, mk.injEq, true_and, and_true]

private theorem mends_repairKeys : Mends repairKeys mendKeys := by
  rintro ⟨_, _, _, _, _, _⟩
  simp only [repairKeys, mendKeys, mk.injEq, true_and, and_true]

private theorem mends_repairFormat : Mends repairFormat mendFormat := by
  rintro ⟨_, _, _, _, _, format⟩
  simp only [repairFormat, mendFormat, mk.injEq, true_and]
  cases format <;> rfl

private theorem mends_repairFilter : Mends repairFilter mendFilter := by
  rintro ⟨_, _, _, _, filter, _⟩
  simp only [repairFilter, mendFilter, Text.nonBlank?, mk.injEq, true_and, and_true]
  by_cases h : Text.trim filter = ""
  · rw [if_pos h, usableFilter, if_pos h, if_neg]
    rintro rfl
    exact absurd h (by decide)
  · rw [if_neg h, usableFilter, if_neg h, if_pos rfl]

/-! ## All repairs -/

/-- One repair after another. -/
def heed (progress : Settings × Bool) (repair : Settings → Option Settings) : Settings × Bool :=
  match repair progress.1 with
  | some s => (s, true)
  | none => progress

theorem repair_eq_foldl (root : Option Toml.Value) (s : Settings) :
    s.repair root = (repairs root).foldl heed (s, false) := rfl

/-- What the repairs put right, apart from the one that takes the interval from its former place. -/
def mends : List (Settings → Settings) :=
  [mendTick, mendSentinel, mendTools, mendKeys, mendFormat, mendFilter]

theorem forall₂_mends : List.Forall₂ Mends
    [repairTick, repairSentinel, repairTools, repairKeys, repairFormat, repairFilter] mends :=
  .cons mends_repairTick <| .cons mends_repairSentinel <| .cons mends_repairTools <|
    .cons mends_repairKeys <| .cons mends_repairFormat <| .cons mends_repairFilter .nil

variable {rs : List (Settings → Option Settings)} {fixes : List (Settings → Settings)}

/-- **One repair** raises the flag if it changes something. -/
theorem Mends.heed_eq {repair : Settings → Option Settings} {fix : Settings → Settings}
    (h : Mends repair fix) (s : Settings) (changed : Bool) :
    heed (s, changed) repair = (fix s, changed || decide (fix s ≠ s)) := by
  rw [heed, h s]
  by_cases hs : fix s = s
  · simp [hs]
  · simp [hs]

private theorem fst_foldl_heed (h : List.Forall₂ Mends rs fixes) (s : Settings) (changed : Bool) :
    (rs.foldl heed (s, changed)).1 = fixes.foldl (fun s fix ↦ fix s) s := by
  induction h generalizing s changed with
  | nil => rfl
  | cons hfix _ ih => rw [List.foldl_cons, List.foldl_cons, hfix.heed_eq, ih]

/-- **Any number of repairs** raise the flag if one of them has something to do at the start. What
one repair does gives the others nothing to do. -/
theorem snd_foldl_heed_iff (h : List.Forall₂ Mends rs fixes) (s : Settings) (changed : Bool) :
    (rs.foldl heed (s, changed)).2 = true ↔ changed = true ∨ ∃ fix ∈ fixes, fix s ≠ s := by
  induction h generalizing s changed with
  | nil => simp
  | @cons repair fix _ _ hfix _ ih =>
    rw [List.foldl_cons, hfix.heed_eq, ih, List.exists_mem_cons_iff]
    by_cases hs : fix s = s
    · simp [hs]
    · simp [hs]

/-! ## Usable settings -/

/-- Settings that can be worked with. -/
structure IsUsable (s : Settings) : Prop where
  tick_pos : 1 ≤ s.tickInterval
  sentinel_trimmed : Text.trim s.sentinel = s.sentinel
  sentinel_not_blank : Text.trim s.sentinel ≠ ""
  format_known : s.format = .text ∨ s.format = .json
  filter_not_blank : Text.trim s.filter ≠ ""

/-- Settings in which everything is put right. -/
def mended (s : Settings) : Settings where
  sentinel := usableSentinel s.sentinel
  delegationTools := cleanNames s.delegationTools
  targetKeys := cleanNames s.targetKeys
  tickInterval := usableTick s.tickInterval
  filter := usableFilter s.filter
  format := usableFormat s.format

/-- Settings with the interval from its former place, if there is one. -/
def withFormerTick (root : Option Toml.Value) (s : Settings) : Settings :=
  { s with tickInterval := (formerTick? root).getD s.tickInterval }

@[simp] theorem mended_sentinel (s : Settings) :
    s.mended.sentinel = usableSentinel s.sentinel := by rw [mended]

@[simp] theorem mended_filter (s : Settings) : s.mended.filter = usableFilter s.filter := by
  rw [mended]

@[simp] theorem withFormerTick_sentinel (root : Option Toml.Value) (s : Settings) :
    (s.withFormerTick root).sentinel = s.sentinel := rfl

@[simp] theorem withFormerTick_filter (root : Option Toml.Value) (s : Settings) :
    (s.withFormerTick root).filter = s.filter := rfl

private theorem foldl_mends (s : Settings) : mends.foldl (fun s mend ↦ mend s) s = s.mended := by
  simp only [mends, List.foldl_cons, List.foldl_nil, mendTick, mendSentinel, mendTools, mendKeys,
    mendFormat, mendFilter, mended]

/-- Each setting is put right on its own, and nothing that is put right is undone. -/
theorem forall_mends_eq_iff {s : Settings} : (∀ mend ∈ mends, mend s = s) ↔ s.mended = s := by
  obtain ⟨_, _, _, _, _, _⟩ := s
  simp only [mends, List.forall_mem_cons, List.not_mem_nil, false_implies, implies_true, mended,
    mendTick, mendSentinel, mendTools, mendKeys, mendFormat, mendFilter, mk.injEq, true_and,
    and_true]
  constructor
  · rintro ⟨htick, hsentinel, htools, hkeys, hformat, hfilter⟩
    exact ⟨hsentinel, htools, hkeys, htick, hfilter, hformat⟩
  · rintro ⟨hsentinel, htools, hkeys, htick, hfilter, hformat⟩
    exact ⟨htick, hsentinel, htools, hkeys, hformat, hfilter⟩

variable {root : Option Toml.Value} {s : Settings}

theorem withFormerTick_of_eq_none (h : formerTick? root = none) : s.withFormerTick root = s := by
  rw [withFormerTick, h, Option.getD_none]

theorem heed_takeFormerTick (root : Option Toml.Value) (s : Settings) :
    heed (s, false) (takeFormerTick root) = (s.withFormerTick root, (formerTick? root).isSome) := by
  rw [heed, takeFormerTick, withFormerTick]
  cases formerTick? root <;> rfl

theorem fst_repair (root : Option Toml.Value) (s : Settings) :
    (s.repair root).1 = (s.withFormerTick root).mended := by
  rw [repair_eq_foldl, repairs, List.foldl_cons, heed_takeFormerTick,
    fst_foldl_heed forall₂_mends, foldl_mends]

private theorem snd_repair_iff : (s.repair root).2 = true ↔
    (formerTick? root).isSome = true ∨ (s.withFormerTick root).mended ≠ s.withFormerTick root := by
  rw [repair_eq_foldl, repairs, List.foldl_cons, heed_takeFormerTick,
    snd_foldl_heed_iff forall₂_mends, ne_eq, ← forall_mends_eq_iff]
  push Not
  rfl

/-! ## The settings of a repair -/

/-- What a repair makes of settings. -/
structure RepairsTo (root : Option Toml.Value) (before after : Settings) : Prop where
  usable : after.IsUsable
  tools_cleaned : IsCleaned before.delegationTools after.delegationTools
  keys_cleaned : IsCleaned before.targetKeys after.targetKeys
  /-- What can be worked with is kept. -/
  tick_eq : 1 ≤ (before.withFormerTick root).tickInterval →
    after.tickInterval = (before.withFormerTick root).tickInterval
  sentinel_eq : Text.trim before.sentinel ≠ "" → after.sentinel = Text.trim before.sentinel
  format_eq : before.format ≠ .unknown → after.format = before.format
  filter_eq : Text.trim before.filter ≠ "" → after.filter = before.filter
  /-- Nothing is left to do. -/
  repair_eq : (after.repair root).1 = after

theorem isUsable_mended (s : Settings) : s.mended.IsUsable where
  tick_pos := one_le_usableTick _
  sentinel_trimmed := by rw [mended_sentinel, trim_usableSentinel]
  sentinel_not_blank := by
    rw [mended_sentinel, trim_usableSentinel]
    exact usableSentinel_ne_empty _
  format_known := usableFormat_eq _
  filter_not_blank := by
    rw [mended_filter]
    exact trim_usableFilter_ne_empty _

private theorem mended_mended (s : Settings) : s.mended.mended = s.mended := by
  have h := isUsable_mended s
  rw [mended, usableSentinel_of_trimmed h.sentinel_not_blank h.sentinel_trimmed,
    usableTick_of_pos h.tick_pos, usableFormat_of_known h.format_known,
    usableFilter_of_not_blank h.filter_not_blank]
  simp only [mended, cleanNames_cleanNames]

theorem mended_of_tick (s : Settings) (tick : Nat) : { s with tickInterval := tick }.mended
    = { s.mended with tickInterval := usableTick tick } := by
  simp only [mended]

/-- The interval from its former place is put right in the same way each time. -/
theorem mended_withFormerTick_mended (root : Option Toml.Value) (s : Settings) :
    ((s.withFormerTick root).mended.withFormerTick root).mended
      = (s.withFormerTick root).mended := by
  cases h : formerTick? root with
  | none => rw [withFormerTick_of_eq_none h, withFormerTick_of_eq_none h, mended_mended]
  | some tick =>
    have htick (t : Settings) : t.withFormerTick root = { t with tickInterval := tick } := by
      rw [withFormerTick, h]; rfl
    rw [htick, htick, mended_of_tick, mended_mended, mended_of_tick]

/-- **A repair** brings settings into a form that they can be worked with. -/
theorem repairsTo_repair (root : Option Toml.Value) (s : Settings) :
    RepairsTo root s (s.repair root).1 := by
  rw [fst_repair]
  exact {
    usable := isUsable_mended _
    tools_cleaned := isCleaned_cleanNames _
    keys_cleaned := isCleaned_cleanNames _
    tick_eq := usableTick_of_pos
    sentinel_eq := fun h ↦ by
      rw [mended_sentinel, withFormerTick_sentinel, usableSentinel_of_not_blank h]
    format_eq := usableFormat_of_ne_unknown
    filter_eq := fun h ↦ by
      rw [mended_filter, withFormerTick_filter, usableFilter_of_not_blank h]
    repair_eq := by rw [fst_repair, mended_withFormerTick_mended] }

/-! ## The flag of a repair -/

/-- It is told that a repair changed settings exactly if it did. -/
def TellsChange (root : Option Toml.Value) (s : Settings) : Prop :=
  (s.repair root).2 = true ↔ (s.repair root).1 ≠ s

/-- The former place of the interval holds the one that the settings have. -/
def IsFormerTick (root : Option Toml.Value) (s : Settings) : Prop :=
  ∃ tick, formerTick? root = some tick ∧ usableTick tick = s.tickInterval

theorem IsFormerTick.of_unchanged (h : (formerTick? root).isSome = true)
    (hsame : (s.repair root).1 = s) : s.IsFormerTick root := by
  obtain ⟨tick, htick⟩ := Option.isSome_iff_exists.mp h
  refine ⟨tick, htick, ?_⟩
  have hinterval := congrArg tickInterval hsame
  rwa [fst_repair, withFormerTick, htick, mended_of_tick] at hinterval

/-- **The flag** is raised for every change, and for an interval in its former place that the
settings have anyway, which is taken without a look at what it replaces. -/
theorem repair_flag_iff (root : Option Toml.Value) (s : Settings) :
    (s.repair root).2 = true ↔ (s.repair root).1 ≠ s ∨ s.IsFormerTick root := by
  rw [snd_repair_iff]
  by_cases h : (formerTick? root).isSome = true
  · refine iff_of_true (Or.inl h) ?_
    by_cases hsame : (s.repair root).1 = s
    · exact Or.inr (.of_unchanged h hsame)
    · exact Or.inl hsame
  · have hnone : formerTick? root = none := Option.not_isSome_iff_eq_none.mp h
    have hnot : ¬s.IsFormerTick root := by
      rintro ⟨tick, htick, -⟩
      rw [hnone] at htick
      cases htick
    rw [or_iff_right h, or_iff_left hnot, fst_repair, withFormerTick_of_eq_none hnone]

/-- A settings file of older times that holds the usual interval. -/
def formerFile : Toml.Value := .table [("watch", .table [("interval_ms", .integer 1000)])]

/-- The file stands for the usual settings, so a repair changes nothing and tells of a change. -/
theorem not_tellsChange_formerFile : ofToml? formerFile = some default ∧
    ¬TellsChange (some formerFile) default := by
  refine ⟨rfl, ?_⟩
  rw [TellsChange]
  decide

end Settings

end SessionReplay
