import Mathlib.Data.List.Induction
import SignatureLedger.Command.Report
import SignatureLedger.Proofs.Config.Written
import SignatureLedger.Proofs.Text.Json

/-!
# JSON reports

What is printed as JSON is read by a JSON decoder as what was meant: a text between quotes as
itself, the settings as one object with their keys and values, and the extracted signatures as one
array with an object for each of them (`parse_reports`).
-/

namespace SignatureLedger

open Byte

/-! ## Quotes -/

/-- The number of backslashes at the end of a text. -/
def slashesAtEnd (s : Bytes) : Nat := Bytes.run (· == backslash) s.reverse

/-- What may stand between quotes: no control byte, and no quote without a backslash of its own. The
quote has one if the number of backslashes before it is odd. -/
structure Quotable (s : Bytes) : Prop where
  not_lt_space : ∀ b ∈ s, ¬ b < space
  slashes_odd : ∀ u v, s = u ++ doubleQuote :: v → slashesAtEnd u % 2 = 1

/-- One more byte at the end lengthens the run of backslashes there, or ends it. -/
theorem slashesAtEnd_concat (s : Bytes) (b : UInt8) :
    slashesAtEnd (s ++ [b]) = if b = backslash then slashesAtEnd s + 1 else 0 := by
  rw [slashesAtEnd, List.reverse_append, List.reverse_singleton, List.singleton_append, Bytes.run,
    List.takeWhile_cons]
  by_cases hb : b = backslash
  · rw [if_pos (beq_iff_eq.mpr hb), if_pos hb, List.length_cons]
    rfl
  · rw [if_neg (by simpa using hb), if_neg hb]
    rfl

/-- Escaping goes byte by byte, from the end too. -/
theorem escape_concat (s : Bytes) (b : UInt8) : escape (s ++ [b]) = escape s ++ escapeByte b := by
  rw [escape, List.flatMap_append, List.flatMap_singleton, escape]

/-- Between quotes, the backslashes at the end stand in pairs. -/
theorem slashesAtEnd_escape (s : Bytes) : slashesAtEnd (escape s) % 2 = 0 := by
  induction s using List.reverseRecOn with
  | nil => rfl
  | append_singleton s b ih =>
    rw [escape_concat]
    have hspelled := Config.spelled_escapeByte b
    generalize escapeByte b = w at hspelled
    cases hspelled with
    | plain _ hslash _ => rw [slashesAtEnd_concat, if_neg hslash]
    | @named c hc h =>
      rw [List.append_cons, slashesAtEnd_concat, slashesAtEnd_concat, if_pos rfl]
      split <;> omega
    | @numbered x y hb hx hy =>
      have hlast : escape s ++ (bytes "\\u00" ++ [x, y]) =
          escape s ++ bytes "\\u00" ++ [x] ++ [y] := by
        rw [List.append_cons, List.append_assoc, List.append_assoc, List.append_assoc]
      rw [hlast, slashesAtEnd_concat, if_neg hy.2.1]

/-- In the writing of one byte, a quote stands behind a backslash and nothing else. -/
theorem eq_of_escapeByte_eq {b : UInt8} {u v : Bytes} (h : escapeByte b = u ++ doubleQuote :: v) :
    u = [backslash] := by
  have hspelled := Config.spelled_escapeByte b
  rw [h] at hspelled
  generalize hw : u ++ doubleQuote :: v = w at hspelled
  have hmem : doubleQuote ∈ w := hw ▸ List.mem_append_right u List.mem_cons_self
  cases hspelled with
  | plain hquote _ _ => exact absurd (List.mem_singleton.mp hmem).symm hquote
  | @named c _ _ =>
    cases u with
    | nil => exact absurd (List.cons.inj hw).1 (by decide)
    | cons d u =>
      obtain ⟨rfl, hw⟩ := List.cons.inj hw
      have hlength := congrArg List.length hw
      simp only [List.length_append, List.length_cons, List.length_nil] at hlength
      have hu : u.length = 0 := by omega
      rw [List.length_eq_zero_iff.mp hu]
  | @numbered x y _ hx hy =>
    have hplain : doubleQuote ∉ bytes "\\u00" := by decide
    rcases List.mem_append.mp hmem with hmem | hmem
    · exact absurd hmem hplain
    · rcases List.mem_pair.mp hmem with heq | heq
      · exact absurd heq.symm hx.1
      · exact absurd heq.symm hy.1

/-- Inside an escaped text a quote stands behind an odd number of backslashes. -/
theorem slashesAtEnd_odd_of_escape_eq {s u v : Bytes} (h : escape s = u ++ doubleQuote :: v) :
    slashesAtEnd u % 2 = 1 := by
  induction s using List.reverseRecOn generalizing v with
  | nil => exact absurd h (by simp [escape])
  | append_singleton s b ih =>
    rw [escape_concat] at h
    -- the quote is in the text before, or among the bytes that `b` is written with
    rcases List.append_eq_append_iff.mp h with ⟨m, rfl, hm⟩ | ⟨m, hm, hv⟩
    · rw [eq_of_escapeByte_eq hm, slashesAtEnd_concat, if_pos rfl]
      have := slashesAtEnd_escape s
      omega
    · cases m with
      | nil => exact absurd (eq_of_escapeByte_eq (u := []) hv.symm) (by decide)
      | cons c m =>
        obtain ⟨rfl, -⟩ := List.cons.inj hv
        exact ih hm

/-- An escaped text may stand between quotes. -/
theorem quotable_escape (s : Bytes) : Quotable (escape s) where
  not_lt_space _ hb := Config.not_lt_space_of_mem_escape hb
  slashes_odd _ _ h := slashesAtEnd_odd_of_escape_eq h

open Json

/-! ## Settings -/

/-- The JSON value of a configuration value. -/
def Config.Value.toJson : Config.Value → Json
  | text s => .string s
  | number n => .number n.toInt 0

/-- A rendered value is read as that value. -/
theorem Config.Value.reads_render (depth : Nat) (v : Config.Value) :
    Reads (Json.value (depth + 1)) v.render v.toJson := by
  cases v with
  | text s => exact reads_quote depth s
  | number n => exact reads_signedDecimal depth n.toInt

/-- A rendered map is read as the object with its entries, in order. Each value is read back on its
own, and `reads_object` puts the members together. -/
theorem Config.parse_renderObject (values : Config.Values) :
    Json.parse (Config.renderObject values) =
      some (.object (values.toList.map fun (key, v) => (key, v.toJson))) := by
  let members := values.toList.map fun x => (x.1, x.2.render, x.2.toJson)
  have hmember : ∀ depth, ∀ m ∈ members, Reads (Json.value (depth + 1)) m.2.1 m.2.2 := by
    intro depth m hm
    obtain ⟨x, -, rfl⟩ := List.mem_map.mp hm
    exact x.2.reads_render depth
  have htext : Config.renderObject values = openBrace ::
      Bytes.join [comma] (members.map fun m => quote m.1 ++ colon :: m.2.1) ++ [closeBrace] := by
    have hcomma : bytes "," = [comma] := rfl
    have hcolon : bytes ":" = [colon] := rfl
    rw [Config.renderObject, hcomma, hcolon, List.map_map]
    simp only [List.append_assoc, List.singleton_append]
    rfl
  have hvalue : (values.toList.map fun (key, v) => (key, v.toJson)) =
      members.map fun m => (m.1, m.2.2) := by
    rw [List.map_map]
    rfl
  have hlength : 1 ≤ (Config.renderObject values).length := by
    rw [Config.renderObject, List.cons_append]
    exact Nat.succ_le_succ (Nat.zero_le _)
  have hread : ∀ depth, Reads (Json.value (depth + (1 + 1))) (Config.renderObject values)
      (.object (values.toList.map fun (key, v) => (key, v.toJson))) := by
    intro depth
    rw [htext, hvalue]
    exact reads_object (hmember depth)
  rw [← List.append_nil (Config.renderObject values)]
  exact parse_of_reads hlength hread blanks_nil

namespace Command

/-! ## Extracted signatures -/

/-- The members of the object of a signature: their names, their texts, and what these stand for. -/
def signatureMembers (a : Analysis) (s : Signature) : List (Bytes × Bytes × Json) :=
  [(bytes "file", quote a.path, .string a.path),
    (bytes "dialect", quote (bytes a.dialect.name), .string (bytes a.dialect.name)),
    (bytes "name", quote s.name, .string s.name),
    (bytes "kind", quote (bytes s.kind.name), .string (bytes s.kind.name)),
    (bytes "exported", bytes (if s.exported then "true" else "false"), .bool s.exported),
    (bytes "hash", quote s.digest, .string s.digest),
    (bytes "signature", quote s.text, .string s.text)]

/-- The object that a signature is printed as. -/
def signatureJson (a : Analysis) (s : Signature) : Json :=
  .object
    [(bytes "file", .string a.path), (bytes "dialect", .string (bytes a.dialect.name)),
      (bytes "name", .string s.name), (bytes "kind", .string (bytes s.kind.name)),
      (bytes "exported", .bool s.exported), (bytes "hash", .string s.digest),
      (bytes "signature", .string s.text)]

/-- The object of a signature is its members between braces. -/
theorem signatureObject_eq (a : Analysis) (s : Signature) :
    signatureObject a s = openBrace :: Bytes.join [comma]
      ((signatureMembers a s).map fun m => quote m.1 ++ colon :: m.2.1) ++ [closeBrace] := by
  have hfile : bytes "\x7b\"file\":" = openBrace :: quote (bytes "file") ++ [colon] := by
    decide +kernel
  have hdialect : bytes ",\"dialect\":" = comma :: quote (bytes "dialect") ++ [colon] := by
    decide +kernel
  have hname : bytes ",\"name\":" = comma :: quote (bytes "name") ++ [colon] := by decide +kernel
  have hkind : bytes ",\"kind\":" = comma :: quote (bytes "kind") ++ [colon] := by decide +kernel
  have hexported : bytes ",\"exported\":" = comma :: quote (bytes "exported") ++ [colon] := by
    decide +kernel
  have hhash : bytes ",\"hash\":" = comma :: quote (bytes "hash") ++ [colon] := by decide +kernel
  have hsignature : bytes ",\"signature\":" = comma :: quote (bytes "signature") ++ [colon] := by
    decide +kernel
  rw [signatureObject, hfile, hdialect, hname, hkind, hexported, hhash, hsignature]
  simp only [signatureMembers, List.map_cons, List.map_nil, Bytes.join, List.append_assoc,
    List.cons_append, List.nil_append]

/-- The object of a signature is read as the signature. -/
theorem reads_signatureObject (depth : Nat) (a : Analysis) (s : Signature) :
    Reads (Json.value (depth + 2)) (signatureObject a s) (signatureJson a s) := by
  rw [signatureObject_eq]
  refine reads_object fun m hm => ?_
  simp only [signatureMembers, List.mem_cons, List.not_mem_nil, or_false] at hm
  rcases hm with rfl | rfl | rfl | rfl | rfl | rfl | rfl
  case inr.inr.inr.inr.inl => exact reads_bool depth s.exported
  all_goals exact reads_quote depth _

theorem blanks_indent : Blanks (bytes "  ") := by
  unfold Blanks
  decide +kernel

theorem blanks_lineFeed : Blanks [lineFeed] := by
  unfold Blanks
  decide +kernel

/-- The object of a signature starts an item of the array. -/
theorem startsItem_signatureObject (a : Analysis) (s : Signature) :
    StartsItem closeBracket (bytes "  " ++ signatureObject a s) := by
  obtain ⟨t, ht⟩ : ∃ t, signatureObject a s = openBrace :: t := ⟨_, signatureObject_eq a s⟩
  have hbrace : isBlank openBrace = false := by decide
  refine ⟨openBrace, t, ?_, by decide⟩
  rw [skipBlanks_append blanks_indent, ht, skipBlanks_cons hbrace]

/-- The report is an array with its objects on lines of their own. Each object is read behind its
indentation, and `reads_array` passes the line feeds between them. -/
theorem parse_renderArray (xs : List (Analysis × Signature)) :
    Json.parse (renderArray (xs.map fun x => signatureObject x.1 x.2)) =
      some (.array (xs.map fun x => signatureJson x.1 x.2)) := by
  let items := xs.map fun x => (bytes "  " ++ signatureObject x.1 x.2, signatureJson x.1 x.2)
  have hread : ∀ depth, ∀ x ∈ items, Reads (Json.value (depth + 2)) x.1 x.2 := by
    intro depth x hx
    obtain ⟨y, -, rfl⟩ := List.mem_map.mp hx
    exact (reads_signatureObject depth y.1 y.2).indent blanks_indent
  have hstart : ∀ x ∈ items, StartsItem closeBracket x.1 := by
    intro x hx
    obtain ⟨y, -, rfl⟩ := List.mem_map.mp hx
    exact startsItem_signatureObject y.1 y.2
  have hvalue : (xs.map fun x => signatureJson x.1 x.2) = items.map (·.2) := by
    rw [List.map_map]
    rfl
  cases xs with
  | nil => rfl
  | cons x xs =>
    have harray := fun depth => reads_array (hread depth) hstart blanks_lineFeed blanks_lineFeed
      blanks_lineFeed
    have htext : renderArray ((x :: xs).map fun x => signatureObject x.1 x.2) =
        openBracket :: ([lineFeed] ++ (Bytes.join (comma :: [lineFeed]) (items.map (·.1)) ++
          ([lineFeed] ++ [closeBracket]))) ++ [lineFeed] := by
      have hlines : ((x :: xs).map fun x => signatureObject x.1 x.2).map (bytes "  " ++ ·) =
          items.map (·.1) := by
        rw [List.map_map, List.map_map]
        rfl
      have hempty : ((x :: xs).map fun x => signatureObject x.1 x.2).isEmpty = false := rfl
      rw [renderArray, hempty, if_neg Bool.false_ne_true, hlines, List.append_assoc,
        List.cons_append, List.append_assoc, List.append_assoc, List.append_assoc]
      rfl
    rw [htext, hvalue]
    refine parse_of_reads ?_ harray blanks_lineFeed
    simp only [List.length_cons, List.length_append]
    omega

/-- A whole report in that format is read as the array of its signatures. -/
theorem parse_extractReport (r : ExtractRequest) (plan : Plan) (outcomes : List Outcome) :
    Json.parse (extractReport { r with format := .json } plan outcomes).out =
      some (.array ((analyses outcomes).flatMap fun a =>
        (a.signatures.filter fun s => r.kinds.isEmpty || r.kinds.contains s.kind).map
          (signatureJson a))) := by
  -- each signature that is asked for, beside the file that it is from
  let xs := (analyses outcomes).flatMap fun a => (selected r a).map fun s => (a, s)
  have htext : (extractReport { r with format := .json } plan outcomes).out =
      renderArray (xs.map fun x => signatureObject x.1 x.2) := by
    rw [List.map_flatMap]
    simp only [List.map_map]
    rfl
  rw [htext, parse_renderArray, List.map_flatMap]
  simp only [List.map_map]
  rfl

end Command

/-! ## All of it -/

/-- **What is printed as JSON decodes to what was written.** A quoted text has neither a control
byte nor a bare quote, and is read as itself; the settings are read as one object with their keys
and values; and the report on extracted signatures is read as one array, with an object for each
signature that was asked for. -/
theorem parse_reports (s rest : Bytes) (values : Config.Values) (r : Command.ExtractRequest)
    (plan : Command.Plan) (outcomes : List Command.Outcome) :
    Quotable (escape s) ∧ string? (escape s ++ doubleQuote :: rest) = some (s, rest) ∧
      Json.parse (Config.renderObject values) =
        some (.object (values.toList.map fun (key, v) => (key, v.toJson))) ∧
      Json.parse (Command.extractReport { r with format := .json } plan outcomes).out =
        some (.array ((Command.analyses outcomes).flatMap fun a =>
          (a.signatures.filter fun s => r.kinds.isEmpty || r.kinds.contains s.kind).map
            (Command.signatureJson a))) :=
  ⟨quotable_escape s, string?_escape s rest, Config.parse_renderObject values,
    Command.parse_extractReport r plan outcomes⟩

end SignatureLedger
