import Mathlib.Data.List.Nodup
import SignatureLedger.Analysis

/-!
# Every name once

`collapse` takes one offer after the other. A new name goes to the end and a known one keeps its
place, so that the symbols of a module have distinct names (`nodup_names_collapse`), and each of
them is the symbol of an offer (`mem_collapse`), as each remark is on an offer
(`mem_found_collapse`).
-/

namespace SignatureLedger

namespace Extracted

/-- The names under which symbols are recorded, in their order. -/
def names (e : Extracted) : List Bytes := e.symbols.map Symbol.name

/-- An offer adds its name, unless the name is known. The names before it keep their places. -/
theorem names_add (e : Extracted) (o : Offer) :
    (e.add o).names = if o.symbol.name ∈ e.names then e.names else e.names ++ [o.symbol.name] := by
  unfold add
  cases hfind : e.symbols.find? (·.name == o.symbol.name) with
  | none =>
    have hno : o.symbol.name ∉ e.names := by
      simpa [names, List.find?_eq_none] using hfind
    rw [if_neg hno]
    exact List.map_append
  | some old =>
    have hold : o.symbol.name ∈ e.names :=
      List.mem_map.mpr ⟨old, List.mem_of_find?_eq_some hfind, by simpa using List.find?_some hfind⟩
    rw [if_pos hold]
    -- where a symbol is replaced, its name is the one of the offer
    show (e.symbols.map fun s =>
      if s.name == o.symbol.name then o.symbol else s).map Symbol.name = _
    rw [List.map_map]
    refine List.map_congr_left fun s _ => ?_
    rw [Function.comp_apply]
    split
    · rename_i h
      exact (beq_iff_eq.mp h).symm
    · rfl

/-- Behind an offer its own symbol is the only one of its name. -/
theorem mem_add {e : Extracted} {o : Offer} {s : Symbol} (h : s ∈ (e.add o).symbols) :
    s = o.symbol ∨ s ∈ e.symbols ∧ s.name ≠ o.symbol.name := by
  unfold add at h
  split at h
  · rename_i hnone
    rcases List.mem_append.mp h with h | h
    · exact .inr ⟨h, by simpa using List.find?_eq_none.mp hnone s h⟩
    · exact .inl (List.mem_singleton.mp h)
  · obtain ⟨t, ht, rfl⟩ := List.mem_map.mp h
    split
    · exact .inl rfl
    · rename_i hne
      exact .inr ⟨ht, by simpa using hne⟩

/-- An offer is remarked on where its name stands. -/
theorem mem_found_add {e : Extracted} {o : Offer} {d : Diagnostic} (h : d ∈ (e.add o).found) :
    d ∈ e.found ∨ d.file = 0 ∧ d.span = o.nameSpan := by
  unfold add at h
  split at h
  · exact .inl h
  · refine (List.mem_append.mp h).imp_right fun h => ?_
    unfold remark? at h
    split at h
    · exact absurd h List.not_mem_nil
    · rw [List.mem_singleton.mp h]
      exact ⟨rfl, rfl⟩

end Extracted

/-- **No name twice.** -/
theorem nodup_names_collapse (offers : List Offer) : (collapse offers).names.Nodup := by
  refine List.foldlRecOn (motive := fun e : Extracted => e.names.Nodup) offers _ List.nodup_nil ?_
  intro e h o _
  rw [Extracted.names_add]
  split
  · exact h
  · rename_i hno
    refine List.nodup_append.mpr ⟨h, List.nodup_singleton _, fun a ha b hb => ?_⟩
    rw [List.mem_singleton.mp hb]
    exact ne_of_mem_of_not_mem ha hno

/-- Every symbol was offered. -/
theorem mem_collapse {offers : List Offer} {s : Symbol} (h : s ∈ (collapse offers).symbols) :
    ∃ o ∈ offers, s = o.symbol := by
  have hall : ∀ s ∈ (collapse offers).symbols, ∃ o ∈ offers, s = o.symbol := by
    refine List.foldlRecOn
      (motive := fun e : Extracted => ∀ s ∈ e.symbols, ∃ o ∈ offers, s = o.symbol) offers _
      (fun s hs => absurd hs List.not_mem_nil) ?_
    intro e he o ho s hs
    rcases Extracted.mem_add hs with hs | ⟨hs, -⟩
    · exact ⟨o, ho, hs⟩
    · exact he s hs
  exact hall s h

/-- Every remark is on an offer. -/
theorem mem_found_collapse {offers : List Offer} {d : Diagnostic}
    (h : d ∈ (collapse offers).found) : ∃ o ∈ offers, d.file = 0 ∧ d.span = o.nameSpan := by
  have hall : ∀ d ∈ (collapse offers).found, ∃ o ∈ offers, d.file = 0 ∧ d.span = o.nameSpan := by
    refine List.foldlRecOn
      (motive := fun e : Extracted => ∀ d ∈ e.found, ∃ o ∈ offers, d.file = 0 ∧ d.span = o.nameSpan)
      offers _ (fun d hd => absurd hd List.not_mem_nil) ?_
    intro e he o ho d hd
    rcases Extracted.mem_found_add hd with hd | hd
    · exact he d hd
    · exact ⟨o, ho, hd⟩
  exact hall d h

namespace Analysis

/-- The names of the symbols, in their order. -/
def names (a : Analysis) : List Bytes := a.signatures.map (·.name)

/-- The declarations of a source. -/
def decls (options : AnalysisOptions) (path source : Bytes) : List Decl :=
  let lexed := lex (Dialect.ofPath path) source
  (parseModule source (some options.maxErrors.toNat) lexed.found lexed.tokens).decls

/-- The symbols of an analysis are those of the extraction, each with its text normalized. -/
theorem symbols_analyze (options : AnalysisOptions) (path source : Bytes) :
    (analyze options path source).symbols =
      (extract source options.policy (decls options path source)).symbols.map Symbol.normalized :=
  rfl

/-- The symbols of a source have distinct names. -/
theorem nodup_names (options : AnalysisOptions) (path source : Bytes) :
    (analyze options path source).names.Nodup := by
  have hnames : (analyze options path source).names =
      (extract source options.policy (decls options path source)).names := by
    rw [names, signatures, symbols_analyze, List.map_map, List.map_map]
    rfl
  rw [hnames]
  exact nodup_names_collapse _

end Analysis

end SignatureLedger
