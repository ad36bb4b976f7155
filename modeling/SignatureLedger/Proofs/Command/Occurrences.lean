import SignatureLedger.Command.Arguments
import Mathlib.Data.List.Nodup
import Mathlib.Data.List.TakeWhile

/-!
# What arguments say

The arguments behind a command are spelled occurrences of options and files, and an option with its
value is spelled as one argument or as two. Properly spelled occurrences are read as what they are
(`items_spellAll`), and all arguments that are accepted are properly spelled (`exists_spellAll`).
-/

namespace SignatureLedger.Command

open Byte

/-! ## Occurrences -/

/-- What one or two arguments say: an option with its value, or a file. The value of an option is
joined to the key by an equals sign, or it is an argument of its own. -/
inductive Occurrence where
  | option (key value : Bytes) (joined : Bool)
  | file (path : Bytes)
deriving DecidableEq, Repr

namespace Occurrence

/-- The key of an option; there is none for a file. -/
def key? : Occurrence → Option Bytes
  | option key _ _ => some key
  | file _ => none

/-- The value of an option, or the path of a file. -/
def text : Occurrence → Bytes
  | option _ value _ => value
  | file path => path

/-- The arguments of an occurrence: an option in one or in two of them, or a file. -/
def spell : Occurrence → List Bytes
  | option key value true => [key ++ equals :: value]
  | option key value false => [key, value]
  | file path => [path]

/-- An option has one of the given keys and a value, and a file does not look like an option. -/
def IsProper (keys : List Bytes) : Occurrence → Prop
  | option key value _ => key ∈ keys ∧ value ≠ []
  | file path => path.head? ≠ some minus

instance (keys : List Bytes) : ∀ a, Decidable (IsProper keys a)
  | option key value _ => inferInstanceAs (Decidable (key ∈ keys ∧ value ≠ []))
  | file path => inferInstanceAs (Decidable (path.head? ≠ some minus))

/-- How the value of an option is spelled plays no part. -/
theorem IsProper.congr {keys : List Bytes} {a b : Occurrence} (ha : a.IsProper keys)
    (hkey : a.key? = b.key?) (htext : a.text = b.text) : b.IsProper keys := by
  cases a with
  | option key value joined =>
    cases b with
    | option key' value' joined' =>
      obtain rfl := Option.some.inj hkey
      obtain rfl : value = value' := htext
      exact ha
    | file path => exact absurd hkey (by simp [key?])
  | file path =>
    cases b with
    | option key' value' joined' => exact absurd hkey (by simp [key?])
    | file path' =>
      obtain rfl : path = path' := htext
      exact ha

/-- What an occurrence is read as. -/
def item {σ : Type} (options : List (ValueOption σ)) : Occurrence → Item σ
  | option key value _ =>
    match options.find? (·.key == key) with
    | some o => .valued o value
    | none => .plain key
  | file path => .plain path

/-- Occurrences with the same key and text are the same item. -/
theorem item_congr {σ : Type} (options : List (ValueOption σ)) {a b : Occurrence}
    (hkey : a.key? = b.key?) (htext : a.text = b.text) : a.item options = b.item options := by
  cases a with
  | option key value joined =>
    cases b with
    | option key' value' joined' =>
      obtain rfl := Option.some.inj hkey
      obtain rfl : value = value' := htext
      rfl
    | file path => exact absurd hkey (by simp [key?])
  | file path =>
    cases b with
    | option key' value' joined' => exact absurd hkey (by simp [key?])
    | file path' => exact congrArg Item.plain htext

end Occurrence

/-- The arguments of occurrences, one after the other. -/
def spellAll (os : List Occurrence) : List Bytes := os.flatMap Occurrence.spell

/-- The first occurrence is spelled before the others. -/
theorem spellAll_cons (o : Occurrence) (os : List Occurrence) :
    spellAll (o :: os) = o.spell ++ spellAll os := List.flatMap_cons

/-! ## Keys -/

/-- The key in an argument is what stands before the first equals sign. -/
theorem eq_key_of_of? {key arg : Bytes} {u : OptionUse} (hkey : equals ∉ key)
    (h : OptionUse.of? key arg = some u) : arg.takeWhile (· != equals) = key := by
  have hplain : ∀ b ∈ key, (b != equals) = true := fun b hb => bne_iff_ne.mpr (by
    rintro rfl
    exact hkey hb)
  rw [OptionUse.of?] at h
  split at h
  · rename_i harg
    rw [harg, List.takeWhile_eq_self_iff]
    exact hplain
  · split at h
    · rename_i hprefix
      obtain ⟨value, rfl⟩ := List.isPrefixOf_iff_prefix.mp hprefix
      rw [List.append_assoc, List.takeWhile_append_of_pos hplain]
      simp
    · exact absurd h (by simp)

theorem of?_key (key : Bytes) : OptionUse.of? key key = some .alone := if_pos rfl

/-- A key with a value behind the sign is the option with that value. -/
theorem of?_joined (key value : Bytes) :
    OptionUse.of? key (key ++ equals :: value) = some (.joined value) := by
  have hne : key ++ equals :: value ≠ key := by simp
  have hprefix : (key ++ [equals]).isPrefixOf (key ++ equals :: value) = true :=
    List.isPrefixOf_iff_prefix.mpr ⟨value, by simp⟩
  rw [OptionUse.of?, if_neg hne, if_pos hprefix, List.drop_append]
  simp

/-- How an argument that names an option is spelled. -/
theorem eq_of_of? {key arg : Bytes} {u : OptionUse} (h : OptionUse.of? key arg = some u) :
    match u with
    | .alone => arg = key
    | .joined value => arg = key ++ equals :: value := by
  rw [OptionUse.of?] at h
  split at h
  · rename_i harg
    obtain rfl := Option.some.inj h
    exact harg
  · split at h
    · rename_i hprefix
      obtain ⟨value, rfl⟩ := List.isPrefixOf_iff_prefix.mp hprefix
      obtain rfl := Option.some.inj h
      show key ++ [equals] ++ value = key ++ equals :: List.drop _ _
      rw [List.append_assoc, List.drop_append]
      simp
    · exact absurd h (by simp)

/-- Options that can be told apart from each other and from files. -/
structure WellKeyed (keys : List Bytes) : Prop where
  nodup : keys.Nodup
  equals_not_mem : ∀ key ∈ keys, equals ∉ key
  head_eq : ∀ key ∈ keys, key.head? = some minus

section

variable {σ : Type} {options : List (ValueOption σ)} {o : ValueOption σ}

/-- The keys of options. -/
def keysOf (options : List (ValueOption σ)) : List Bytes := options.map (·.key)

/-- The key of an option is one of the keys. -/
theorem mem_keysOf (ho : o ∈ options) : o.key ∈ keysOf options := List.mem_map_of_mem ho

/-- An argument that names an option is found to do so. -/
theorem findUse?_of_mem (h : WellKeyed (keysOf options)) (ho : o ∈ options) {arg : Bytes}
    {u : OptionUse} (huse : OptionUse.of? o.key arg = some u) :
    findUse? options arg = some (o, u) := by
  have hkey := eq_key_of_of? (h.equals_not_mem _ (mem_keysOf ho)) huse
  have hsome : (findUse? options arg).isSome := by
    rw [findUse?, List.findSome?_isSome_iff]
    exact ⟨o, ho, by simp [huse]⟩
  obtain ⟨⟨o', u'⟩, hfound⟩ := Option.isSome_iff_exists.mp hsome
  obtain ⟨o'', ho', heq⟩ := List.exists_of_findSome?_eq_some hfound
  obtain ⟨u'', huse', heq⟩ := Option.map_eq_some_iff.mp heq
  obtain ⟨rfl, rfl⟩ := Prod.mk.inj heq
  -- what is found has the same key, and is the same option then
  have hkey' := eq_key_of_of? (h.equals_not_mem _ (mem_keysOf ho')) huse'
  obtain rfl := List.inj_on_of_nodup_map h.nodup ho ho' (hkey.symm.trans hkey')
  rw [hfound, Option.some.inj (huse'.symm.trans huse)]

/-- An argument that does not look like an option names none. -/
theorem findUse?_eq_none (h : WellKeyed (keysOf options)) {arg : Bytes}
    (harg : arg.head? ≠ some minus) : findUse? options arg = none := by
  rw [findUse?, List.findSome?_eq_none_iff]
  intro o ho
  rw [Option.map_eq_none_iff]
  cases huse : OptionUse.of? o.key arg with
  | none => rfl
  | some u =>
    have hhead := h.head_eq _ (mem_keysOf ho)
    obtain ⟨b, key, hkey⟩ := List.exists_cons_of_ne_nil
      (show o.key ≠ [] from fun hnil => absurd (hnil ▸ hhead) (by simp))
    refine absurd ?_ harg
    have hspelled := eq_of_of? huse
    cases u with
    | alone => rw [hspelled, hhead]
    | joined value =>
      rw [hspelled, hkey]
      rw [hkey] at hhead
      exact hhead

/-- Every key has its option, and it is the first one found. -/
theorem exists_find?_key {key : Bytes} (h : key ∈ keysOf options) :
    ∃ o ∈ options, o.key = key ∧ options.find? (·.key == key) = some o := by
  have hsome : (options.find? (·.key == key)).isSome := by
    obtain ⟨o, ho, rfl⟩ := List.mem_map.mp h
    rw [List.find?_isSome]
    exact ⟨o, ho, by simp⟩
  obtain ⟨o, ho⟩ := Option.isSome_iff_exists.mp hsome
  exact ⟨o, List.mem_of_find?_eq_some ho, by simpa using List.find?_some ho, ho⟩

/-! ## Reading what is spelled -/

/-- **Occurrences are read as what they are**, in either spelling. By induction on the occurrences:
a file is no use of an option, and an option is found by its key. -/
theorem items_spellAll (h : WellKeyed (keysOf options)) {os : List Occurrence}
    (hos : ∀ a ∈ os, a.IsProper (keysOf options)) :
    items options (spellAll os) = os.map (·.item options) := by
  induction os with
  | nil => rw [spellAll, List.flatMap_nil, items, List.map_nil]
  | cons a os ih =>
    obtain ⟨ha, hos⟩ := List.forall_mem_cons.mp hos
    rw [spellAll_cons, List.map_cons, ← ih hos]
    cases a with
    | file path =>
      rw [Occurrence.spell, List.singleton_append, items, findUse?_eq_none h ha]
      rfl
    | option key value joined =>
      obtain ⟨o, ho, rfl, hfind⟩ := exists_find?_key ha.1
      rw [Occurrence.item, hfind]
      cases joined with
      | true =>
        rw [Occurrence.spell, List.singleton_append, items,
          findUse?_of_mem h ho (of?_joined o.key value)]
      | false =>
        rw [Occurrence.spell, List.cons_append, List.singleton_append, items,
          findUse?_of_mem h ho (of?_key o.key)]

/-- How a request is changed by an item and the items behind it. -/
theorem applyItems_cons_eq_iff {operand : Bytes → σ → Except Fault σ} {s u : σ} {i : Item σ}
    {is : List (Item σ)} : applyItems operand s (i :: is) = (u, none) ↔
      ∃ t, i.apply operand s = .ok t ∧ applyItems operand t is = (u, none) := by
  rw [applyItems]
  cases i.apply operand s with
  | ok t => simp
  | error e => simp

/-- **What is accepted is properly spelled.** By induction on the arguments as they are read, where
each step takes a file or an option in one of its two spellings. -/
theorem exists_spellAll {operand : Bytes → σ → Except Fault σ}
    (hoperand : ∀ arg s t, operand arg s = .ok t → arg.head? ≠ some minus) {args : List Bytes}
    {s u : σ} (h : applyItems operand s (items options args) = (u, none)) :
    ∃ os : List Occurrence, (∀ a ∈ os, a.IsProper (keysOf options)) ∧ spellAll os = args := by
  have hfind : ∀ {arg o use}, findUse? options arg = some (o, use) →
      o.key ∈ keysOf options ∧ OptionUse.of? o.key arg = some use := by
    intro arg o use hfound
    obtain ⟨o', ho, heq⟩ := List.exists_of_findSome?_eq_some hfound
    obtain ⟨use', huse, heq⟩ := Option.map_eq_some_iff.mp heq
    obtain ⟨rfl, rfl⟩ := Prod.mk.inj heq
    exact ⟨mem_keysOf ho, huse⟩
  have hvalue : ∀ {o : ValueOption σ} {v : Bytes} {s t : σ},
      (Item.valued o v).apply operand s = .ok t → v ≠ [] := by
    rintro o v s t hok rfl
    exact absurd hok (by simp [Item.apply])
  fun_induction items options args generalizing s with
  | case1 => exact ⟨[], by simp, rfl⟩
  | case2 arg args hnone ih =>
    obtain ⟨t, hfirst, hrest⟩ := applyItems_cons_eq_iff.mp h
    obtain ⟨os, hos, hspell⟩ := ih hrest
    exact ⟨.file arg :: os, List.forall_mem_cons.mpr ⟨hoperand arg s t hfirst, hos⟩,
      by rw [spellAll_cons, hspell]; rfl⟩
  | case3 arg args o v hfound ih =>
    obtain ⟨t, hfirst, hrest⟩ := applyItems_cons_eq_iff.mp h
    obtain ⟨os, hos, hspell⟩ := ih hrest
    obtain ⟨hkey, huse⟩ := hfind hfound
    exact ⟨.option o.key v true :: os, List.forall_mem_cons.mpr ⟨⟨hkey, hvalue hfirst⟩, hos⟩,
      by rw [spellAll_cons, hspell, eq_of_of? huse]; rfl⟩
  | case4 arg o hfound =>
    obtain ⟨t, hfirst, -⟩ := applyItems_cons_eq_iff.mp h
    exact absurd rfl (hvalue hfirst)
  | case5 arg o hfound v args ih =>
    obtain ⟨t, hfirst, hrest⟩ := applyItems_cons_eq_iff.mp h
    obtain ⟨os, hos, hspell⟩ := ih hrest
    obtain ⟨hkey, huse⟩ := hfind hfound
    exact ⟨.option o.key v false :: os, List.forall_mem_cons.mpr ⟨⟨hkey, hvalue hfirst⟩, hos⟩,
      by rw [spellAll_cons, hspell, eq_of_of? huse]; rfl⟩

end

end SignatureLedger.Command
