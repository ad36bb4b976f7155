import SignatureLedger.Proofs.Declaration.ItemRules
import SignatureLedger.Proofs.Declaration.Twin.Items
import SignatureLedger.Proofs.Signature.Collapse
import SignatureLedger.Proofs.Token.Tiles

/-!
# Two sources side by side

What is known of two runs of the parser is brought to the analyses of two sources: if both are free
of findings and the runs start where the parses of the two sources start, then the signatures are
the same (`Analysis.signatures_eq_of_hole`).
-/

namespace SignatureLedger

open SignatureLedger.Parser

/-! ## The start -/

/-- Tokens before the tails, or the first tokens of these. -/
theorem Runs.Inner.matched {r : Runs} {t t' : Token} (h : r.Inner t t') : r.Matched t t' := by
  obtain ⟨n, hn, heq, heq'⟩ := h
  have hlen : r.tail.length ≤ r.start.left := r.twins.length_le
  exact ⟨n, by omega, heq, heq'⟩

/-- At the start nothing has been taken. -/
theorem Runs.abreast_start {r : Runs} (h : r.start.cursor.behind = [])
    (h' : r.start'.cursor.behind = []) : r.Abreast r.start r.start' := by
  have hprevious : ∀ c : Cursor, c.behind = [] → c.previous = c.peekAt 0 := by
    intro c hc
    rw [Cursor.previous, hc, List.headD_nil, Cursor.peek_eq_peekAt]
  refine ⟨⟨0, ?_, rfl, rfl⟩, 0, Nat.zero_le _, hprevious _ h, hprevious _ h'⟩
  rw [Nat.zero_add]
  exact r.twins.length_le

namespace Analysis

/-- What is recorded of each symbol: its name, its kind and its digest. -/
def fingerprints (a : Analysis) : List (Bytes × SymbolKind × Bytes) :=
  a.signatures.map fun s => (s.name, s.kind, s.digest)

variable {options : AnalysisOptions} {path source : Bytes}

/-- The state in which the parse of a source starts. -/
def start (options : AnalysisOptions) (path source : Bytes) : Parser :=
  moduleStart source (some options.maxErrors.toNat) [] (lex (Dialect.ofPath path) source).tokens

/-- The parse starts before the tokens that tile the source. -/
theorem cursor_start (options : AnalysisOptions) {ts : List Token}
    (hts : (lex (Dialect.ofPath path) source).tokens = ts ++ [Token.eofAt source.length])
    (htiles : Tiles source 0 ts) : (start options path source).cursor = ⟨[], ts, source.length⟩ := by
  show Cursor.ofTokens (lex (Dialect.ofPath path) source).tokens = _
  rw [hts]
  exact Cursor.ofTokens_append_eofAt htiles.kind_ne_eof source.length

/-- The parse starts without findings. -/
theorem quiet_start : Quiet (start options path source) := ⟨rfl, rfl, rfl, rfl⟩

/-- If the analysis has no findings, neither has the reading of the tokens. -/
theorem found_lex (h : (analyze options path source).found = []) :
    (lex (Dialect.ofPath path) source).found = [] :=
  (List.append_eq_nil_iff.mp (List.append_eq_nil_iff.mp h).1).1

/-- Without findings, the declarations are those that the parse of the items gives. -/
theorem decls_eq (h : (analyze options path source).found = []) :
    decls options path source = ((start options path source).itemsFrom false).1.1 := by
  unfold decls
  dsimp only
  rw [found_lex h]
  rfl

/-- A parse that finds nothing is quiet to its end. -/
theorem quiet_itemsFrom (h : (analyze options path source).found = []) :
    Quiet ((start options path source).itemsFrom false).1.2 := by
  have hparsed := (List.append_eq_nil_iff.mp (List.append_eq_nil_iff.mp h).1).2
  rw [found_lex h] at hparsed
  exact quiet_of_found_eq_nil quiet_start (reaches_itemsFrom false _) hparsed

variable {V : Views} {r : Runs}

/-- **Two runs, one list of signatures.** If both sources are free of findings and differ in no more
than one body that both parses note, they have the same signatures. -/
theorem signatures_eq_of_hole (H : r.Hole V) (hstart : r.start = start options path V.source)
    (hstart' : r.start' = start options path V.source')
    (hclean : (analyze options path V.source).found = [])
    (hclean' : (analyze options path V.source').found = [])
    (hbody : r.tail ≠ [] → H.hole ∈ Decl.bodiesOfAll (decls options path V.source))
    (hbody' : r.tail' ≠ [] → H.hole' ∈ Decl.bodiesOfAll (decls options path V.source'))
    (hfits : ∀ s ∈ Decl.spaceNamesOfAll (decls options path V.source), V.fits s)
    (hfits' : ∀ s ∈ Decl.spaceNamesOfAll (decls options path V.source'), V.fits' s) :
    (analyze options path V.source).signatures = (analyze options path V.source').signatures := by
  have habreast : r.Abreast r.start r.start' :=
    r.abreast_start (by rw [hstart]; rfl) (by rw [hstart']; rfl)
  have hlives : ∀ {x : List Token} {hole left : Nat} {bodies : List Nat},
      (x ≠ [] → hole ∈ bodies) → x.length ≤ left ∨ hole ∈ bodies := by
    intro x hole left bodies h
    by_cases hx : x = []
    · exact .inl (hx ▸ Nat.zero_le _)
    · exact .inr (h hx)
  have hitems := r.same_itemsFrom H false habreast
  rw [hstart, hstart'] at hitems
  rw [decls_eq hclean] at hbody hfits
  rw [decls_eq hclean'] at hbody' hfits'
  obtain ⟨hoffers, -⟩ := hitems ⟨quiet_itemsFrom hclean, hlives hbody⟩
    ⟨quiet_itemsFrom hclean', hlives hbody'⟩
  have heq := hoffers.normalForms_eq hfits hfits' options.policy
  rw [← decls_eq hclean, ← decls_eq hclean'] at heq
  rw [signatures, signatures, symbols_analyze, symbols_analyze, List.map_map, List.map_map]
  exact heq

end Analysis

end SignatureLedger
