import SignatureLedger.Proofs.Command.Occurrences
import SignatureLedger.Proofs.Text.Bytes
import Mathlib.Data.List.Pairwise

/-!
# The order and the spelling of options

Options change parts of a request that have nothing to do with each other, and files are added to
one more part, so that two of them can change places (`Swaps`). Arguments that say the same about
every option, and name the same files, in the same order each, come to the same request
(`Rearranged.readArguments`), whatever else is between them and however values are spelled.
-/

namespace SignatureLedger.Command

open Byte

/-! ## Changes that can swap places -/

section

variable {σ τ ε α β : Type}

/-- In either order the two changes succeed together, and come to the same. -/
def Swaps (c d : σ → Except ε σ) : Prop := ∀ s u, (c s >>= d) = .ok u ↔ (d s >>= c) = .ok u

/-- Swapping does not depend on which change is the first. -/
theorem Swaps.symm {c d : σ → Except ε σ} (h : Swaps c d) : Swaps d c := fun s u => (h s u).symm

/-- The change puts what `x` has into the state. Whether it does so depends on `x` only. -/
def Puts (c : σ → Except ε σ) (x : Except ε α) (put : α → σ → σ) : Prop :=
  ∀ s, c s = x.map (put · s)

/-- A reading that puts what it reads into the state does nothing else. -/
theorem puts_bind (x : Except ε α) (put : α → σ → σ) :
    Puts (fun s => x >>= fun a => pure (put a s)) x put := by
  intro s
  cases x <;> rfl

/-- Changes can swap places if what they put does not get in each other's way. -/
theorem swaps_of_puts {c d : σ → Except ε σ} {x : Except ε α} {y : Except ε β}
    {put : α → σ → σ} {put' : β → σ → σ} (hc : Puts c x put) (hd : Puts d y put')
    (h : ∀ a b s, put' b (put a s) = put a (put' b s)) : Swaps c d := by
  intro s u
  simp only [bind_eq_ok_iff, hc _, hd _, map_eq_ok_iff]
  constructor
  · rintro ⟨-, ⟨a, ha, rfl⟩, b, hb, rfl⟩
    exact ⟨_, ⟨b, hb, rfl⟩, a, ha, (h a b s).symm⟩
  · rintro ⟨-, ⟨b, hb, rfl⟩, a, ha, rfl⟩
    exact ⟨_, ⟨a, ha, rfl⟩, b, hb, h a b s⟩

/-! ### Changes of a part -/

/-- A part of a state that can be looked at and replaced. -/
structure IsPart (part : σ → τ) (put : τ → σ → σ) : Prop where
  part_put : ∀ a s, part (put a s) = a
  put_put : ∀ a b s, put b (put a s) = put b s

variable {part : σ → τ} {put : τ → σ → σ}

/-- The change of a part, as a change of the whole. -/
def onPart (part : σ → τ) (put : τ → σ → σ) (c : τ → Except ε τ) (s : σ) : Except ε σ :=
  (c (part s)).map (put · s)

/-- Changes of a part, one after the other, are one change of the part. -/
theorem onPart_bind (hpart : IsPart part put) (c d : τ → Except ε τ) (s : σ) :
    (onPart part put c s >>= onPart part put d) = onPart part put (fun a => c a >>= d) s := by
  unfold onPart
  dsimp only
  cases c (part s) with
  | error e => rfl
  | ok a =>
    show (d (part (put a s))).map (put · (put a s)) = (d a).map (put · s)
    simp only [hpart.part_put, hpart.put_put]

/-- Changes of a part that can swap places can do so in the whole. -/
theorem Swaps.onPart (hpart : IsPart part put) {c d : τ → Except ε τ} (h : Swaps c d) :
    Swaps (onPart part put c) (onPart part put d) := by
  intro s u
  rw [onPart_bind hpart, onPart_bind hpart]
  simp only [Command.onPart, map_eq_ok_iff, h (part s)]

/-- A change that leaves a part alone can swap places with a change of the part. -/
theorem swaps_onPart {x : Except ε α} {put' : α → σ → σ} {c : σ → Except ε σ} (hc : Puts c x put')
    (hpart : ∀ a s, part (put' a s) = part s) (hput : ∀ a t s, put t (put' a s) = put' a (put t s))
    (d : τ → Except ε τ) : Swaps c (onPart part put d) := by
  intro s u
  simp only [bind_eq_ok_iff, hc _, onPart, map_eq_ok_iff]
  constructor
  · rintro ⟨-, ⟨a, ha, rfl⟩, t, ht, rfl⟩
    rw [hpart] at ht
    exact ⟨_, ⟨t, ht, rfl⟩, a, ha, (hput a t s).symm⟩
  · rintro ⟨-, ⟨t, ht, rfl⟩, a, ha, rfl⟩
    exact ⟨_, ⟨a, ha, rfl⟩, t, (hpart a s).symm ▸ ht, hput a t s⟩

end

/-! ## Items that can swap places -/

section

variable {σ : Type} {options : List (ValueOption σ)} {operand : Bytes → σ → Except Fault σ}

/-- Any two options can swap places, and every option can do so with an operand. -/
structure Independent (options : List (ValueOption σ)) (operand : Bytes → σ → Except Fault σ) :
    Prop where
  pairwise : options.Pairwise fun o o' => ∀ v v', Swaps (o.set v) (o'.set v')
  swaps_operand : ∀ o ∈ options, ∀ v arg, Swaps (o.set v) (operand arg)

/-- What an occurrence changes. -/
def Occurrence.change (options : List (ValueOption σ)) (operand : Bytes → σ → Except Fault σ)
    (a : Occurrence) (s : σ) : Except Fault σ := (a.item options).apply operand s

/-- An option with a value makes the change of the option. -/
theorem exists_change_option (operand : Bytes → σ → Except Fault σ) {key value : Bytes}
    {joined : Bool} (h : (Occurrence.option key value joined).IsProper (keysOf options)) :
    ∃ o ∈ options, o.key = key ∧
      Occurrence.change options operand (.option key value joined) = o.set value := by
  obtain ⟨hkey, hvalue⟩ := h
  obtain ⟨o, ho, hokey, hfind⟩ := exists_find?_key hkey
  refine ⟨o, ho, hokey, funext fun s => ?_⟩
  rw [Occurrence.change, Occurrence.item, hfind]
  exact if_neg (by simpa using hvalue)

/-- **Occurrences of different options can swap places**, and so can an option and a file. -/
theorem Independent.swaps (h : Independent options operand) {a b : Occurrence}
    (ha : a.IsProper (keysOf options)) (hb : b.IsProper (keysOf options)) (hne : a.key? ≠ b.key?) :
    Swaps (a.change options operand) (b.change options operand) := by
  have hoptions : ∀ o ∈ options, ∀ o' ∈ options, o.key ≠ o'.key →
      ∀ v v', Swaps (o.set v) (o'.set v') := by
    intro o ho o' ho' hkeys
    have hsymm : Std.Symm fun o o' : ValueOption σ => ∀ v v', Swaps (o.set v) (o'.set v') :=
      ⟨fun _ _ hswaps v v' => (hswaps v' v).symm⟩
    exact h.pairwise.forall ho ho' fun heq => hkeys (congrArg _ heq)
  cases a with
  | option key value joined =>
    obtain ⟨o, ho, rfl, hchange⟩ := exists_change_option operand ha
    rw [hchange]
    cases b with
    | option key' value' joined' =>
      obtain ⟨o', ho', rfl, hchange'⟩ := exists_change_option operand hb
      rw [hchange']
      exact hoptions o ho o' ho' (fun heq => hne (congrArg some heq)) value value'
    | file path => exact h.swaps_operand o ho value path
  | file path =>
    cases b with
    | option key' value' joined' =>
      obtain ⟨o', ho', rfl, hchange'⟩ := exists_change_option operand hb
      rw [hchange']
      exact (h.swaps_operand o' ho' value' path).symm
    | file path' => exact absurd rfl hne

/-- The occurrences are accepted one after the other, and change `s` into `u`. -/
def Leads (options : List (ValueOption σ)) (operand : Bytes → σ → Except Fault σ) (s : σ)
    (os : List Occurrence) (u : σ) : Prop :=
  applyItems operand s (os.map (·.item options)) = (u, none)

variable {s u : σ} {a b : Occurrence} {os os' front back : List Occurrence}

/-- The first occurrence is changed first. -/
theorem leads_cons_iff : Leads options operand s (a :: os) u ↔
    ∃ t, a.change options operand s = .ok t ∧ Leads options operand t os u :=
  applyItems_cons_eq_iff

/-- Two changes that swap may stand in either order. -/
theorem leads_swap (h : Swaps (a.change options operand) (b.change options operand)) :
    Leads options operand s (a :: b :: os) u ↔ Leads options operand s (b :: a :: os) u := by
  have htwo : ∀ c d : Occurrence, Leads options operand s (c :: d :: os) u ↔
      ∃ t, (c.change options operand s >>= d.change options operand) = .ok t ∧
        Leads options operand t os u := by
    intro c d
    simp only [leads_cons_iff, bind_eq_ok_iff]
    constructor
    · rintro ⟨r, hr, t, ht, hu⟩
      exact ⟨t, ⟨r, hr, ht⟩, hu⟩
    · rintro ⟨t, ⟨r, hr, ht⟩, hu⟩
      exact ⟨r, hr, t, ht, hu⟩
  rw [htwo, htwo]
  exact exists_congr fun t => and_congr_left fun _ => h s t

/-- An occurrence can be moved to the front over others that it can swap places with. -/
theorem leads_move (h : ∀ a ∈ front, Swaps (a.change options operand) (b.change options operand)) :
    Leads options operand s (front ++ b :: back) u ↔
      Leads options operand s (b :: (front ++ back)) u := by
  induction front generalizing s with
  | nil => rfl
  | cons a front ih =>
    obtain ⟨ha, hfront⟩ := List.forall_mem_cons.mp h
    calc Leads options operand s (a :: (front ++ b :: back)) u
        ↔ Leads options operand s (a :: b :: (front ++ back)) u := by
          rw [leads_cons_iff, leads_cons_iff]
          exact exists_congr fun t => and_congr_right fun _ => ih hfront
      _ ↔ Leads options operand s (b :: a :: (front ++ back)) u := leads_swap ha

/-! ## Rearrangements -/

/-- The values that a key is given, or without a key the files, in their order. -/
def told (key? : Option Bytes) (os : List Occurrence) : List Bytes :=
  (os.filter (·.key? == key?)).map (·.text)

/-- The occurrences say the same about every option and name the same files, in the same order each.
What stands between them, and how they are spelled, may differ. -/
def Rearranged (os os' : List Occurrence) : Prop := ∀ key?, told key? os = told key? os'

/-- What two lists of occurrences tell is told one after the other. -/
theorem told_append (key? : Option Bytes) (os os' : List Occurrence) :
    told key? (os ++ os') = told key? os ++ told key? os' := by
  rw [told, List.filter_append, List.map_append, told, told]

/-- An occurrence of the key is told first. -/
theorem told_cons_of_eq {key? : Option Bytes} (h : a.key? = key?) :
    told key? (a :: os) = a.text :: told key? os := by
  rw [told, List.filter_cons_of_pos (by simpa using h), List.map_cons, told]

/-- An occurrence of another key tells nothing. -/
theorem told_cons_of_ne {key? : Option Bytes} (h : a.key? ≠ key?) :
    told key? (a :: os) = told key? os := by
  rw [told, List.filter_cons_of_neg (by simpa using h), told]

/-- Without the key nothing is told. -/
theorem told_eq_nil {key? : Option Bytes} (h : ∀ a ∈ os, a.key? ≠ key?) : told key? os = [] := by
  rw [told, List.map_eq_nil_iff, List.filter_eq_nil_iff]
  simpa using h

/-- What is told first is told by an occurrence with others in front of it. -/
theorem exists_of_told_eq_cons {key? : Option Bytes} {t : Bytes} {ts : List Bytes}
    (h : told key? os = t :: ts) : ∃ front b back, os = front ++ b :: back ∧ b.key? = key? ∧
      b.text = t ∧ (∀ a ∈ front, a.key? ≠ key?) ∧ told key? back = ts := by
  obtain ⟨b, bs, hfilter, rfl, rfl⟩ := List.map_eq_cons_iff.mp h
  obtain ⟨front, back, rfl, hfront, hb, rfl⟩ := List.filter_eq_cons_iff.mp hfilter
  exact ⟨front, b, back, rfl, by simpa using hb, rfl, by simpa using hfront, rfl⟩

/-- Two rearrangements one after the other are one. -/
theorem Rearranged.trans {os'' : List Occurrence} (h : Rearranged os os')
    (h' : Rearranged os' os'') : Rearranged os os'' := fun key? => (h key?).trans (h' key?)

/-- An option with its value can be spelled in another way. -/
theorem rearranged_respell (front back : List Occurrence) (hkey : a.key? = b.key?)
    (htext : a.text = b.text) : Rearranged (front ++ a :: back) (front ++ b :: back) := by
  intro key?
  rw [told_append, told_append]
  by_cases h : a.key? = key?
  · rw [told_cons_of_eq h, told_cons_of_eq (hkey ▸ h), htext]
  · rw [told_cons_of_ne h, told_cons_of_ne (hkey ▸ h)]

/-- An option can be moved over files and over other options, and so can a file over options. -/
theorem rearranged_move (front passed back : List Occurrence)
    (h : ∀ c ∈ passed, c.key? ≠ a.key?) :
    Rearranged (front ++ a :: (passed ++ back)) (front ++ (passed ++ a :: back)) := by
  intro key?
  rw [told_append, told_append, told_append]
  by_cases hkey : a.key? = key?
  · subst hkey
    rw [told_cons_of_eq rfl, told_cons_of_eq rfl, told_append, told_eq_nil h, List.nil_append,
      List.nil_append]
  · rw [told_cons_of_ne hkey, told_cons_of_ne hkey, told_append]

/-- The first occurrence is found again, with others in front of it that are about something else.
-/
theorem Rearranged.exists_of_cons (h : Rearranged (a :: os) os') :
    ∃ front b back, os' = front ++ b :: back ∧ b.key? = a.key? ∧ b.text = a.text ∧
      (∀ c ∈ front, c.key? ≠ a.key?) ∧ Rearranged os (front ++ back) := by
  have hfirst := h a.key?
  rw [told_cons_of_eq rfl] at hfirst
  obtain ⟨front, b, back, rfl, hkey, htext, hfront, hback⟩ := exists_of_told_eq_cons hfirst.symm
  refine ⟨front, b, back, rfl, hkey, htext, hfront, fun key? => ?_⟩
  by_cases hsame : a.key? = key?
  · subst hsame
    rw [told_append, told_eq_nil hfront, hback, List.nil_append]
  · have hrest := h key?
    rw [told_cons_of_ne hsame, told_append, told_cons_of_ne (hkey ▸ hsame), ← told_append] at hrest
    exact hrest

/-- Every occurrence is found again, perhaps in another spelling. -/
theorem Rearranged.exists_of_mem (h : Rearranged os os') (hb : b ∈ os') :
    ∃ a ∈ os, a.key? = b.key? ∧ a.text = b.text := by
  have hmem : b.text ∈ told b.key? os :=
    h b.key? ▸ List.mem_map_of_mem (List.mem_filter.mpr ⟨hb, beq_self_eq_true _⟩)
  obtain ⟨a, ha, htext⟩ := List.mem_map.mp hmem
  obtain ⟨hmem, hkey⟩ := List.mem_filter.mp ha
  exact ⟨a, hmem, by simpa using hkey, htext⟩

/-- Proper occurrences stay proper when they are rearranged. -/
theorem Rearranged.isProper (h : Rearranged os os') {keys : List Bytes}
    (hos : ∀ a ∈ os, a.IsProper keys) : ∀ b ∈ os', b.IsProper keys := by
  intro b hb
  obtain ⟨a, ha, hkey, htext⟩ := h.exists_of_mem hb
  exact (hos a ha).congr hkey htext

/-- **Rearranged occurrences come to the same.** By induction on the occurrences: the first one
is moved to its new place over others that it does not disturb, and the rest is rearranged by
itself. -/
theorem Rearranged.leads_iff (hind : Independent options operand) (h : Rearranged os os')
    (hos : ∀ a ∈ os, a.IsProper (keysOf options)) :
    Leads options operand s os u ↔ Leads options operand s os' u := by
  induction os generalizing os' s with
  | nil =>
    have hnil : os' = [] := by
      rw [List.eq_nil_iff_forall_not_mem]
      intro b hb
      obtain ⟨a, ha, -⟩ := h.exists_of_mem hb
      exact absurd ha (by simp)
    rw [hnil]
  | cons a os ih =>
    have hos' := h.isProper hos
    obtain ⟨front, b, back, rfl, hkey, htext, hfront, hrest⟩ := h.exists_of_cons
    have hchange : a.change options operand = b.change options operand := by
      unfold Occurrence.change
      rw [Occurrence.item_congr options hkey htext]
    have hswaps : ∀ c ∈ front, Swaps (c.change options operand) (b.change options operand) := by
      intro c hc
      exact hind.swaps (hos' c (List.mem_append_left _ hc)) (hos' b (by simp))
        (hkey.symm ▸ hfront c hc)
    calc Leads options operand s (a :: os) u
        ↔ Leads options operand s (b :: (front ++ back)) u := by
          rw [leads_cons_iff, leads_cons_iff, hchange]
          exact exists_congr fun t => and_congr_right fun _ =>
            ih hrest fun c hc => hos c (List.mem_cons_of_mem a hc)
      _ ↔ Leads options operand s (front ++ b :: back) u := (leads_move hswaps).symm

/-- **Rearranged arguments are read into the same request.** -/
theorem Rearranged.readArguments (hkeys : WellKeyed (keysOf options))
    (hind : Independent options operand) (h : Rearranged os os')
    (hos : ∀ a ∈ os, a.IsProper (keysOf options))
    (haccepted : readArguments options operand s (spellAll os) = (u, none)) :
    readArguments options operand s (spellAll os') = (u, none) := by
  rw [Command.readArguments, items_spellAll hkeys hos] at haccepted
  rw [Command.readArguments, items_spellAll hkeys (h.isProper hos)]
  exact (h.leads_iff hind hos).mp haccepted

end

end SignatureLedger.Command
