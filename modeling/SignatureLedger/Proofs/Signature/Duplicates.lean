import Mathlib.Data.List.Induction
import SignatureLedger.Proofs.Ledger.Lookup
import SignatureLedger.Proofs.Signature.Collapse

/-!
# Names that are offered again

What `collapse` makes of a sequence of offers, told by the sequence alone: the names in the order in
which they first occur, for each name the symbol that was offered last, and a remark on each offer
of a name that had been offered before, other than an overload (`Collapsed`). A recording in two
rows with an index of the names comes to the same (`Register.holds_ofOffers`).
-/

namespace SignatureLedger

/-! ## Earlier offers -/

namespace Offer

/-- The name that is offered. -/
abbrev name (o : Offer) : Bytes := o.symbol.name

/-- The most recent offer of a name. -/
def latest? (offers : List Offer) (name : Bytes) : Option Offer :=
  offers.reverse.find? (·.name == name)

variable {offers before : List Offer} {o : Offer} {n : Bytes}

/-- The latest offer of a name, after one more offer. -/
theorem latest?_concat (offers : List Offer) (o : Offer) (n : Bytes) :
    latest? (offers ++ [o]) n = if o.name = n then some o else latest? offers n := by
  rw [latest?, List.reverse_append, List.reverse_singleton, List.singleton_append, List.find?_cons]
  split
  · rename_i h
    rw [if_pos (beq_iff_eq.mp h)]
  · rename_i h
    rw [if_neg (by simpa using h), latest?]

/-- A name has no latest offer exactly if it was never offered. -/
theorem latest?_eq_none_iff : latest? offers n = none ↔ n ∉ offers.map name := by
  rw [latest?, List.find?_eq_none]
  simp

/-- The remark on an offer behind others: its name was offered before, and it is no overload of the
most recent offer of that name. -/
def remarkAfter? (before : List Offer) (o : Offer) : Option Diagnostic :=
  match latest? before o.name with
  | none => none
  | some previous =>
    if previous.symbol.signature.kind = .function ∧ o.symbol.signature.kind = .function then none
    else
      some { severity := .warning, code := .duplicateSymbol, span := o.nameSpan, args := [o.name] }

/-- The remarks on a sequence of offers, each from what was offered before. -/
def remarks (offers : List Offer) : List Diagnostic :=
  offers.zipIdx.filterMap fun (o, i) => remarkAfter? (offers.take i) o

/-- One more offer adds at most one remark, at the end. -/
theorem remarks_concat (offers : List Offer) (o : Offer) :
    remarks (offers ++ [o]) = remarks offers ++ (remarkAfter? offers o).toList := by
  rw [remarks, List.zipIdx_append, List.filterMap_append]
  congr 1
  · refine List.filterMap_congr fun ⟨x, i⟩ hx => ?_
    have hi : i < offers.length := by
      have := List.snd_lt_of_mem_zipIdx hx
      omega
    dsimp only
    rw [List.take_append_of_le_length (by omega)]
  · have htake : (offers ++ [o]).take offers.length = offers := List.take_left
    rw [Nat.zero_add, List.zipIdx_singleton, List.filterMap_cons, List.filterMap_nil]
    dsimp only
    rw [htake]
    cases remarkAfter? offers o <;> rfl

end Offer

/-! ## What a sequence of offers comes to -/

/-- The symbols and remarks that a sequence of offers comes to. -/
structure Collapsed (offers : List Offer) (e : Extracted) : Prop where
  /-- The names are those of the offers, -/
  mem_names : ∀ n, n ∈ e.names ↔ n ∈ offers.map Offer.name
  /-- each once, -/
  nodup : e.names.Nodup
  /-- in the order in which they first occur. -/
  ordered : e.names.Pairwise fun m n =>
    (offers.map Offer.name).idxOf m < (offers.map Offer.name).idxOf n
  /-- Every symbol is the one that was offered last under its name. -/
  latest : ∀ s ∈ e.symbols, (Offer.latest? offers s.name).map Offer.symbol = some s
  found : e.found = Offer.remarks offers

namespace Collapsed

variable {offers : List Offer} {e : Extracted} {o : Offer}

/-- Nothing offered, nothing recorded. -/
theorem nil : Collapsed [] {} where
  mem_names := by simp [Extracted.names]
  nodup := List.nodup_nil
  ordered := .nil
  latest := fun s hs => absurd hs List.not_mem_nil
  found := rfl

/-- The symbol in the place of a name is the one that was offered last. -/
theorem find?_eq (h : Collapsed offers e) (n : Bytes) :
    e.symbols.find? (·.name == n) = (Offer.latest? offers n).map Offer.symbol := by
  cases hfind : e.symbols.find? (·.name == n) with
  | none =>
    have hno : n ∉ e.names := by simpa [Extracted.names, List.find?_eq_none] using hfind
    rw [h.mem_names, ← Offer.latest?_eq_none_iff] at hno
    rw [hno, Option.map_none]
  | some s =>
    obtain rfl : s.name = n := by simpa using List.find?_some hfind
    exact (h.latest s (List.mem_of_find?_eq_some hfind)).symm

/-- What is remarked on an offer is told by the offers before. -/
theorem found_add (h : Collapsed offers e) (o : Offer) :
    (e.add o).found = e.found ++ (Offer.remarkAfter? offers o).toList := by
  have hfind := h.find?_eq o.name
  unfold Extracted.add Offer.remarkAfter?
  cases hlatest : Offer.latest? offers o.name with
  | none =>
    rw [hlatest, Option.map_none] at hfind
    rw [show e.symbols.find? (·.name == o.symbol.name) = none from hfind]
    exact (List.append_nil _).symm
  | some previous =>
    rw [hlatest, Option.map_some] at hfind
    rw [show e.symbols.find? (·.name == o.symbol.name) = some previous.symbol from hfind]
    rfl

/-- Every recorded symbol is that of the latest offer of its name, also after one more offer. -/
theorem latest_add (h : Collapsed offers e) (o : Offer) :
    ∀ s ∈ (e.add o).symbols,
      (Offer.latest? (offers ++ [o]) s.name).map Offer.symbol = some s := by
  intro s hs
  rw [Offer.latest?_concat]
  rcases Extracted.mem_add hs with rfl | ⟨hs, hne⟩
  · rw [if_pos rfl, Option.map_some]
  · rw [if_neg (Ne.symm hne)]
    exact h.latest s hs

/-- **One offer more.** What holds of the names, their order, the last offer for each of them and
the remarks still holds. -/
theorem add (h : Collapsed offers e) (o : Offer) : Collapsed (offers ++ [o]) (e.add o) where
  mem_names := by
    intro n
    rw [Extracted.names_add, List.map_append, List.mem_append, ← h.mem_names]
    split
    · rename_i hknown
      simp
      rintro rfl
      exact hknown
    · rw [List.mem_append]
      rfl
  nodup := by
    rw [Extracted.names_add]
    split
    · exact h.nodup
    · rename_i hnew
      refine List.nodup_append.mpr ⟨h.nodup, List.nodup_singleton _, fun m hm n hn => ?_⟩
      rw [List.mem_singleton.mp hn]
      exact ne_of_mem_of_not_mem hm hnew
  ordered := by
    have hbefore : e.names.Pairwise fun m n =>
        ((offers ++ [o]).map Offer.name).idxOf m < ((offers ++ [o]).map Offer.name).idxOf n := by
      refine h.ordered.imp_of_mem fun hm hn hlt => ?_
      rw [h.mem_names] at hm hn
      rwa [List.map_append, List.idxOf_append_of_mem hm, List.idxOf_append_of_mem hn]
    rw [Extracted.names_add]
    split
    · exact hbefore
    · rename_i hnew
      refine List.pairwise_append.mpr ⟨hbefore, List.pairwise_singleton _ _, fun m hm n hn => ?_⟩
      rw [List.mem_singleton.mp hn]
      rw [h.mem_names] at hm hnew
      rw [List.map_append, List.idxOf_append_of_mem hm, List.idxOf_append_of_notMem hnew]
      have := List.idxOf_lt_length_iff.mpr hm
      omega
  latest := h.latest_add o
  found := by rw [h.found_add, h.found, Offer.remarks_concat]

end Collapsed

/-- What is collapsed is what the offers come to. -/
theorem collapsed_collapse (offers : List Offer) : Collapsed offers (collapse offers) := by
  induction offers using List.reverseRecOn with
  | nil => exact .nil
  | append_singleton offers o ih =>
    rw [collapse, List.foldl_append]
    exact ih.add o

/-! ## Two rows and an index -/

/-- What is listed of a symbol beside its signature. -/
structure Listing where
  name : Bytes
  kind : SymbolKind
  exported : Bool
  span : Span

/-- The row that a symbol shows in the listing. -/
def Symbol.listing (s : Symbol) : Listing :=
  ⟨s.name, s.signature.kind, s.signature.exported, s.span⟩

/-- A recording in two rows side by side, with the place that each name has in both. -/
structure Register where
  places : ByteMap Nat := .empty
  listings : List Listing := []
  signatures : List Signature := []
  found : List Diagnostic := []

namespace Register

/-- A new name goes to the end of both rows. In the place of a known one, both rows are
overwritten. -/
def record (r : Register) (o : Offer) : Register :=
  match r.places.find? o.name with
  | none =>
    { r with
      places := r.places.insert o.name r.listings.length
      listings := r.listings ++ [o.symbol.listing]
      signatures := r.signatures ++ [o.symbol.signature] }
  | some i =>
    let overloads := (r.listings[i]?).map Listing.kind = some .function ∧
      o.symbol.signature.kind = .function
    { r with
      listings := r.listings.set i o.symbol.listing
      signatures := r.signatures.set i o.symbol.signature
      found :=
        if overloads then r.found
        else r.found.concat
          { severity := .warning, code := .duplicateSymbol, span := o.nameSpan, args := [o.name] } }

/-- The rows hold the symbols, each in the place of its name. -/
structure Holds (r : Register) (e : Extracted) : Prop where
  places : ∀ n i, r.places.find? n = some i ↔ e.names[i]? = some n
  listings : r.listings = e.symbols.map Symbol.listing
  signatures : r.signatures = e.symbols.map Symbol.signature
  found : r.found = e.found

variable {r : Register} {e : Extracted} {o : Offer} {n : Bytes} {i : Nat}

/-- The empty record stands in the empty tables. -/
theorem holds_nil : Holds {} {} where
  places := by simp [Extracted.names, ByteMap.find?_empty]
  listings := rfl
  signatures := rfl
  found := rfl

/-- Every recorded name has its symbol in the same place. -/
theorem exists_symbol (hi : e.names[i]? = some n) : ∃ s, e.symbols[i]? = some s ∧ s.name = n := by
  rwa [Extracted.names, List.getElem?_map, Option.map_eq_some_iff] at hi

/-- Where the names are distinct, a name stands in one place. -/
theorem eq_of_place {j : Nat} {s : Symbol} (hnodup : e.names.Nodup) (hi : e.names[i]? = some n)
    (hj : e.symbols[j]? = some s) (hs : s.name = n) : j = i := by
  have hname : e.names[j]? = some n := by
    rw [Extracted.names, List.getElem?_map, hj, Option.map_some, hs]
  obtain ⟨hlt, -⟩ := List.getElem?_eq_some_iff.mp hname
  exact (List.getElem?_inj hlt hnodup).mp (hname.trans hi.symm)

/-- The symbol at a place is the first one of its name, as names do not repeat. -/
theorem find?_of_place {s : Symbol} (hnodup : e.names.Nodup) (hi : e.names[i]? = some n)
    (hs : e.symbols[i]? = some s) : e.symbols.find? (·.name == n) = some s := by
  obtain ⟨s', hs', hname⟩ := exists_symbol hi
  obtain rfl := Option.some.inj (hs.symm.trans hs')
  obtain ⟨hlt, hget⟩ := List.getElem?_eq_some_iff.mp hs
  refine List.find?_eq_some_iff_getElem.mpr ⟨by simp [hname], i, hlt, hget, fun j hj => ?_⟩
  have hne : e.symbols[j].name ≠ n := fun h =>
    absurd (eq_of_place hnodup hi (List.getElem?_eq_getElem (by omega)) h) (by omega)
  simpa using hne

/-- Where the names are distinct, the symbols of one name are the symbol in its place. -/
theorem map_replace_eq_set (hnodup : e.names.Nodup) (hi : e.names[i]? = some o.name) :
    (e.symbols.map fun s => if s.name == o.symbol.name then o.symbol else s) =
      e.symbols.set i o.symbol := by
  refine List.ext_getElem? fun j => ?_
  rw [List.getElem?_map, List.getElem?_set']
  cases hj : e.symbols[j]? with
  | none => simp
  | some s =>
    by_cases hij : i = j
    · subst hij
      obtain ⟨s', hs', hname⟩ := exists_symbol hi
      obtain rfl := Option.some.inj (hj.symm.trans hs')
      simp [hname]
    · have hne : s.name ≠ o.symbol.name := fun h => hij (eq_of_place hnodup hi hj h).symm
      simp [hne, hij]

/-- What stands at a place of a list with one more at its end. -/
theorem getElem?_concat_iff {α : Type} {l : List α} {x y : α} :
    (l ++ [x])[i]? = some y ↔ l[i]? = some y ∨ i = l.length ∧ x = y := by
  rw [List.getElem?_append]
  split
  · rename_i hi
    exact ⟨.inl, fun h => h.elim id fun h => absurd h.1 (by omega)⟩
  · rename_i hi
    rw [List.getElem?_eq_none (l := l) (by omega), List.getElem?_singleton]
    grind

/-- **One offer more.** A new name gets the next place; for a known one the listing and the
signature at its place are replaced. -/
theorem Holds.record (h : Holds r e) (hnodup : e.names.Nodup) (o : Offer) :
    Holds (r.record o) (e.add o) := by
  have hlength : r.listings.length = e.names.length := by
    rw [h.listings, Extracted.names, List.length_map, List.length_map]
  have hnames := Extracted.names_add e o
  cases hplace : r.places.find? o.name with
  | none =>
    have hnew : o.name ∉ e.names := fun hmem => by
      obtain ⟨i, hi⟩ := List.mem_iff_getElem?.mp hmem
      exact absurd ((h.places o.name i).mpr hi) (by simp [hplace])
    have hfind : e.symbols.find? (·.name == o.symbol.name) = none := by
      simpa [Extracted.names, List.find?_eq_none] using hnew
    rw [if_neg hnew] at hnames
    unfold Register.record
    rw [hplace]
    refine ⟨fun n i => ?_, ?_, ?_, ?_⟩
    · rw [hnames, getElem?_concat_iff, ← h.places n i, ← hlength, ByteMap.find?_insert]
      split
      · rename_i heq
        subst heq
        simp [hplace, eq_comm]
      · rename_i hne
        simp [Ne.symm hne]
    · simp [Extracted.add, hfind, h.listings]
    · simp [Extracted.add, hfind, h.signatures]
    · simp [Extracted.add, hfind, h.found]
  | some i =>
    have hi := (h.places o.name i).mp hplace
    obtain ⟨s, hs, hname⟩ := exists_symbol hi
    have hfind := find?_of_place hnodup hi hs
    rw [if_pos (List.mem_of_getElem? hi)] at hnames
    unfold Register.record
    rw [hplace]
    refine ⟨fun n j => ?_, ?_, ?_, ?_⟩
    · rw [hnames]
      exact h.places n j
    · simp only [Extracted.add, hfind, map_replace_eq_set hnodup hi, List.map_set, h.listings]
    · simp only [Extracted.add, hfind, map_replace_eq_set hnodup hi, List.map_set, h.signatures]
    · have hkind : (r.listings[i]?).map Listing.kind = some s.signature.kind := by
        rw [h.listings, List.getElem?_map, hs]
        rfl
      simp only [Extracted.add, hfind, Extracted.remark?, hkind, h.found, Option.some.injEq]
      split
      · exact (List.append_nil _).symm
      · exact List.concat_eq_append

/-- The rows tell the same of each symbol. -/
theorem Holds.aligned (h : Holds r e) :
    r.listings.map (fun l => (l.name, l.kind, l.exported)) =
      r.signatures.map fun s => (s.name, s.kind, s.exported) := by
  rw [h.listings, h.signatures, List.map_map, List.map_map]
  rfl

/-- The recording of a sequence of offers. -/
def ofOffers (offers : List Offer) : Register := offers.foldl record {}

/-- Two rows with an index come to the same as symbols with their signatures in them. -/
theorem holds_ofOffers (offers : List Offer) : (ofOffers offers).Holds (collapse offers) := by
  induction offers using List.reverseRecOn with
  | nil => exact holds_nil
  | append_singleton offers o ih =>
    rw [ofOffers, collapse, List.foldl_append, List.foldl_append]
    exact ih.record (nodup_names_collapse offers) o

end Register

/-- **Names that are offered again are collapsed exactly.** The declarations of a module come to the
names of its offers, each once and in the order of its first offer, with the symbols that were
offered last; a remark is on each offer whose name was offered before, unless it and the most recent
offer of that name both declare functions. A recording in two rows with an index of the names comes
to the same symbols, signatures and remarks, and its rows are aligned. -/
theorem extract_exact (source : Bytes) (policy : VariablePolicy) (decls : List Decl) :
    Collapsed (Decl.offersOfAll source policy {} decls) (extract source policy decls) ∧
      ∃ r : Register, r = .ofOffers (Decl.offersOfAll source policy {} decls) ∧
        r.Holds (extract source policy decls) ∧
        r.listings.map (fun l => (l.name, l.kind, l.exported)) =
          r.signatures.map (fun s => (s.name, s.kind, s.exported)) := by
  have hholds := Register.holds_ofOffers (Decl.offersOfAll source policy {} decls)
  exact ⟨collapsed_collapse _, _, rfl, hholds, hholds.aligned⟩

end SignatureLedger
