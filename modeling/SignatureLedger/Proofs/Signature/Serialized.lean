import Mathlib.Data.List.Infix
import SignatureLedger.Proofs.Ledger.Comparison
import SignatureLedger.Proofs.Text.Bytes

/-!
# Signatures in their fixed form

The fixed form of a signature escapes nothing: between the name and the text, which may hold any
bytes, stands a tag with the kind and the export flag. Tags are told apart by the bars in them, so
the form can be read in one way only as soon as it is known where the name ends. That is known
unless one name goes on with the tag of the other signature (`serialize_eq_iff`), which takes a name
with `|type:` in it (`serialize_injective`).
-/

namespace SignatureLedger

/-- Where a text has a byte, what stands before the first one and what stands behind it are known.
-/
theorem Bytes.append_cons_inj {b : UInt8} {s t u v : Bytes} (hs : b ∉ s) (ht : b ∉ t) :
    s ++ b :: u = t ++ b :: v ↔ s = t ∧ u = v := by
  constructor
  · intro h
    have hsplit := congrArg (splitOn b) h
    rw [splitOn_append_cons hs, splitOn_append_cons ht] at hsplit
    obtain rfl := (List.cons.inj hsplit).1
    exact ⟨rfl, (List.cons.inj (List.append_cancel_left h)).2⟩
  · rintro ⟨rfl, rfl⟩
    rfl

namespace SymbolKind

/-- No name of a kind has a bar. -/
theorem bar_not_mem_name (k : SymbolKind) : Byte.bar ∉ bytes k.name := by
  cases k <;> decide

/-- Different kinds have different names. -/
theorem name_inj {k l : SymbolKind} : bytes k.name = bytes l.name ↔ k = l := by
  constructor
  · intro h
    have hfind : ofName? (bytes k.name) = ofName? (bytes l.name) := by rw [h]
    have hsome : ∀ m : SymbolKind, ofName? (bytes m.name) = some m := by
      intro m
      cases m <;> decide
    rw [hsome, hsome] at hfind
    exact Option.some.inj hfind
  · rintro rfl
    rfl

end SymbolKind

namespace Signature

/-! ## Tags -/

/-- The mark that ends the name. -/
def kindMark : Bytes := bytes "|type:"

/-- How the export flag is written. -/
def flagText (exported : Bool) : Bytes := bytes (if exported then "true" else "false")

/-- What stands between the name and the text. -/
def tagOf (kind : SymbolKind) (exported : Bool) : Bytes :=
  kindMark ++ (bytes kind.name ++ Byte.bar :: (bytes "exported:" ++ (flagText exported
    ++ Byte.bar :: bytes "signature:")))

abbrev tag (s : Signature) : Bytes := tagOf s.kind s.exported

/-- The serialized signature is its name, its tag and its text behind one another. -/
theorem serialize_eq (s : Signature) :
    s.serialize = bytes "name:" ++ (s.name ++ (s.tag ++ s.text)) := by
  rw [serialize, tag, tagOf, kindMark, flagText]
  simp only [List.append_assoc, List.cons_append]
  rfl

/-- No text of the export flag has a bar. -/
theorem bar_not_mem_flagText (exported : Bool) : Byte.bar ∉ flagText exported := by
  cases exported <;> decide

/-- The two texts of the flag are different. -/
theorem flagText_inj {e f : Bool} : flagText e = flagText f ↔ e = f := by
  revert e f
  decide

variable {k l : SymbolKind} {e f : Bool} {u v : Bytes}

/-- A tag is read bar by bar, and what follows it is left. -/
theorem tagOf_append_inj : tagOf k e ++ u = tagOf l f ++ v ↔ k = l ∧ e = f ∧ u = v := by
  simp only [tagOf, List.append_assoc, List.cons_append, List.append_cancel_left_eq]
  rw [Bytes.append_cons_inj k.bar_not_mem_name l.bar_not_mem_name, SymbolKind.name_inj,
    List.append_cancel_left_eq, Bytes.append_cons_inj (bar_not_mem_flagText e)
      (bar_not_mem_flagText f), flagText_inj, List.append_cancel_left_eq]

/-- No end of a tag but the whole starts as the mark behind a name does. -/
theorem not_prefix_of_mem_tails (k : SymbolKind) (e : Bool) :
    ∀ c ∈ (tagOf k e).tails, c ≠ [] → c ≠ tagOf k e → ¬ c.take 2 <+: kindMark := by
  revert k e
  have hall : ∀ k ∈ SymbolKind.all, ∀ e : Bool, ∀ c ∈ (tagOf k e).tails, c ≠ [] →
      c ≠ tagOf k e → ¬ c.take 2 <+: kindMark := by decide +kernel
  exact fun k => hall k (by cases k <;> decide)

/-- Tags do not overlap: a tag that starts inside another one starts where that one does. -/
theorem exists_of_tagOf_append_eq {w : Bytes} (hw : w ≠ [])
    (h : tagOf k e ++ u = w ++ (tagOf l f ++ v)) :
    ∃ w', w = tagOf k e ++ w' ∧ u = w' ++ (tagOf l f ++ v) := by
  rcases List.append_eq_append_iff.mp h with ⟨w', hw', hu⟩ | ⟨c, hc, hv⟩
  · exact ⟨w', hw', hu⟩
  by_cases hnil : c = []
  · subst hnil
    exact ⟨[], by simpa using hc.symm, hv.symm⟩
  -- the second tag would start at `c`, inside the first one
  have hne : c ≠ tagOf k e := by
    intro heq
    rw [← heq] at hc
    exact hw (List.self_eq_append_left.mp hc)
  have hmark : kindMark <+: c ++ u := by
    rw [← hv, tagOf, List.append_assoc]
    exact List.prefix_append _ _
  have htake : c.take 2 <+: c ++ u := (List.take_prefix 2 c).trans (List.prefix_append c u)
  refine absurd (List.prefix_of_prefix_length_le htake hmark ?_)
    (not_prefix_of_mem_tails k e c ((List.mem_tails c _).mpr ⟨w, hc.symm⟩) hnil hne)
  exact (List.length_take_le 2 c).trans (by decide)

/-! ## Readings of a form -/

variable {x y : Signature}

/-- The form of `x` is also that of `y`, whose longer name goes on with the tag of `x` and a part of
its text. -/
def Covers (x y : Signature) : Prop :=
  ∃ w, y.name = x.name ++ (x.tag ++ w) ∧ x.text = w ++ (y.tag ++ y.text)

/-- A signature that covers another is serialized to the same bytes. -/
theorem serialize_eq_of_covers (h : Covers x y) : x.serialize = y.serialize := by
  obtain ⟨w, hname, htext⟩ := h
  rw [serialize_eq, serialize_eq, hname, htext]
  simp only [List.append_assoc]

/-- With one name there is one reading. -/
theorem serialize_eq_iff_of_name_eq (h : x.name = y.name) : x.serialize = y.serialize ↔ x = y := by
  rw [serialize_eq, serialize_eq, h, List.append_cancel_left_eq, List.append_cancel_left_eq,
    tagOf_append_inj]
  constructor
  · rintro ⟨hkind, hexported, htext⟩
    cases x
    cases y
    simp_all
  · rintro rfl
    exact ⟨rfl, rfl, rfl⟩

/-- Two signatures with one serialization, one name being longer, cover each other. -/
theorem covers_of_serialize_eq {w : Bytes} (hname : y.name = x.name ++ w) (hw : w ≠ [])
    (h : x.serialize = y.serialize) : Covers x y := by
  rw [serialize_eq, serialize_eq, hname, List.append_assoc, List.append_cancel_left_eq,
    List.append_cancel_left_eq] at h
  obtain ⟨w', hw', htext⟩ := exists_of_tagOf_append_eq hw h
  exact ⟨w', hname.trans (by rw [hw']), htext⟩

/-- **When two signatures have one form.** They are equal, or the name of one goes on with the tag
of the other one. -/
theorem serialize_eq_iff : x.serialize = y.serialize ↔ x = y ∨ Covers x y ∨ Covers y x := by
  constructor
  · intro h
    by_cases hname : x.name = y.name
    · exact .inl ((serialize_eq_iff_of_name_eq hname).mp h)
    -- both names start at one place, so one of them is longer
    have heq := h
    rw [serialize_eq, serialize_eq, List.append_cancel_left_eq, List.append_eq_append_iff] at heq
    rcases heq with ⟨w, hy, -⟩ | ⟨w, hx, -⟩
    · refine .inr (.inl (covers_of_serialize_eq hy ?_ h))
      rintro rfl
      exact hname (by rw [hy, List.append_nil])
    · refine .inr (.inr (covers_of_serialize_eq hx ?_ h.symm))
      rintro rfl
      exact hname (by rw [hx, List.append_nil])
  · rintro (rfl | h | h)
    · rfl
    · exact serialize_eq_of_covers h
    · exact (serialize_eq_of_covers h).symm

/-- The longer of the two names contains the mark that opens a kind. -/
theorem Covers.kindMark_infix (h : Covers x y) : kindMark <:+: y.name := by
  obtain ⟨w, hname, -⟩ := h
  rw [hname, tag, tagOf, List.append_assoc]
  exact List.infix_append' _ _ _

/-- **The fixed form says everything.** Of two signatures with one name, or whose names do not hold
the mark `|type:`, the forms are equal exactly if the signatures are; their texts may hold any
bytes. So under one key of a ledger an equal form is an unchanged signature. -/
theorem serialize_injective (x y : Signature) :
    (x.name = y.name ∨ ¬ bytes "|type:" <:+: x.name ∧ ¬ bytes "|type:" <:+: y.name →
      (x.serialize = y.serialize ↔
        x.name = y.name ∧ x.kind = y.kind ∧ x.exported = y.exported ∧ x.text = y.text)) ∧
    ∀ path, ledgerKey path x.name = ledgerKey path y.name →
      (x.serialize = y.serialize ↔ x = y) := by
  have hparts : x = y ↔
      x.name = y.name ∧ x.kind = y.kind ∧ x.exported = y.exported ∧ x.text = y.text := by
    cases x
    cases y
    simp only [Signature.mk.injEq]
    tauto
  refine ⟨fun hnames => ?_, fun path hkey => serialize_eq_iff_of_name_eq (ledgerKey_inj.mp hkey)⟩
  rw [← hparts]
  rcases hnames with hname | ⟨hx, hy⟩
  · exact serialize_eq_iff_of_name_eq hname
  · rw [serialize_eq_iff]
    refine or_iff_left ?_
    rintro (h | h)
    · exact hy h.kindMark_infix
    · exact hx h.kindMark_infix

/-- A signature whose text looks like the rest of a form. -/
def plainSample : Signature :=
  { name := bytes "f", text := bytes "g|type:Class|exported:false|signature:h" }

/-- The same, with the tag and the text in other places. -/
def shiftedSample : Signature :=
  { name := bytes "f|type:Function|exported:true|signature:g", kind := .classKind
    text := bytes "h", exported := false }

/-- The texts differ in what looks like a tag, and so do the forms. -/
theorem serialize_injective_sample :
    ¬ bytes "|type:" <:+: plainSample.name ∧ ¬ bytes "|type:" <:+: bytes "fg" ∧
      plainSample.serialize ≠ { plainSample with name := bytes "fg" }.serialize ∧
      ledgerKey (bytes "a.ts") plainSample.name = ledgerKey (bytes "a.ts") (bytes "f") ∧
      plainSample.serialize ≠ { plainSample with kind := .const }.serialize := by
  have hf : ¬ bytes "|type:" <:+: plainSample.name := by decide
  have hfg : ¬ bytes "|type:" <:+: bytes "fg" := by decide
  refine ⟨hf, hfg, fun h => ?_, rfl, fun h => ?_⟩
  · have hparts := ((serialize_injective plainSample { plainSample with name := bytes "fg" }).1
      (.inr ⟨hf, hfg⟩)).mp h
    exact absurd hparts.1 (by decide)
  · have heq := ((serialize_injective plainSample { plainSample with kind := .const }).2
      (bytes "a.ts") rfl).mp h
    exact absurd heq (by decide)

/-- A name that holds the mark can take the tag and a part of the text of another signature. -/
example : plainSample.serialize = shiftedSample.serialize ∧ plainSample ≠ shiftedSample := by
  decide

end Signature

end SignatureLedger
