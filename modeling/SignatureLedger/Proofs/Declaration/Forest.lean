import SignatureLedger.Proofs.Declaration.Spans

/-!
# Declarations are well nested

Whatever a parse declares, from whatever tokens and however it ends, has spans that are not empty,
that lie in the source and that do not overlap: one declaration behind the other, the members of a
class and the declarations of a namespace in its body (`nested_parseModule`).
-/

namespace SignatureLedger

namespace Parser

variable {source : Bytes} {p q : Parser} {m : DeclModifiers} {lo : Nat}

/-! ## Items -/

/-- The declarations of an item lie behind the offset `lo`; of a namespace, what stands before its
body. -/
def Places (lo : Nat) (r : Item × Parser) : Prop :=
  match r.1 with
  | .complete ds => Decl.Forest lo r.2.frontier ds
  | .opened s b => s.Starts lo b ∧ b < r.2.frontier

/-- What is placed behind an offset is placed behind every smaller one. -/
theorem Places.mono {lo' : Nat} {r : Item × Parser} (h : Places lo r) (hlo : lo' ≤ lo) :
    Places lo' r := by
  obtain ⟨i, q⟩ := r
  cases i with
  | complete ds => exact Decl.Forest.mono h hlo (Nat.le_refl _)
  | opened s b => exact ⟨⟨Nat.le_trans hlo h.1.lo_le, h.1.name, h.1.plain⟩, h.2⟩

/-- No declarations stand in every place. -/
theorem places_nil (lo : Nat) (q : Parser) : Places lo (.complete [], q) := .nil

/-- A namespace stands behind its first token, and its members stand in its body. -/
theorem Stands.namespaceItem (h : Stands source p) (hend : p.bump.atEnd = false)
    (hlo : p.declStart m ≤ p.peek.span.lo) : Places (p.declStart m) (p.namespaceItem m) := by
  have hstarts := h.spaceStart hend hlo
  have hreach : Reaches p (p.spaceStart m).2 := by
    rw [spaceStart_snd]
    exact .ite (fun _ => reaches_bump p)
      (fun _ => (reaches_bump p).trans (reaches_skipSpaceName _))
  have hq := h.reach hreach
  unfold Parser.namespaceItem
  dsimp only
  split
  · rename_i hopen
    have hpeek := hq.peek (atEnd_of_isPunct hopen)
    exact ⟨⟨hstarts.lo_le, hstarts.name.mono (Nat.le_refl _) hpeek.lo_le, hstarts.plain⟩,
      Nat.lt_of_lt_of_le hpeek.lt hpeek.hi_le⟩
  · exact hstarts.finish (hq.frontier_le (reaches_finishItem _))
      (fun b hb => absurd hb (by simp)) (.inl rfl)

/-- **A declaration lies behind its first modifier**, whatever kind it is of. It starts with that
modifier, which is not behind its own first word. -/
theorem Stands.eachDecl (h : Stands source p) (hfront : lo ≤ p.frontier)
    (hlo : p.atEnd = false → lo ≤ p.declStart m ∧ p.declStart m ≤ p.peek.span.lo) :
    EachDecl (Places lo) p m := by
  have hfirst : ∀ {r : Item × Parser}, p.atEnd = false →
      (p.declStart m ≤ p.peek.span.lo → Places (p.declStart m) r) → Places lo r :=
    fun hend hplaces => (hplaces (hlo hend).2).mono (hlo hend).1
  have hnext : p.peekNext.kind ≠ .eof → p.bump.atEnd = false :=
    fun hne => not_atEnd_of_kind (congrArg Token.kind (peek_bump p)) hne
  constructor
  case functionDecl =>
    intro hk
    have hend := atEnd_of_isKeyword hk
    exact hfirst hend fun hle => h.functionDecl hend hle
  case classDecl =>
    intro hk
    have hend := atEnd_of_isKeyword hk
    exact hfirst hend fun hle => h.classDecl hend hle
  case interfaceDecl =>
    intro hw hn
    exact hfirst (atEnd_of_isWord hw) fun hle => h.interfaceDecl (hnext (by simp [hn])) hle
  case enumDecl =>
    intro hk
    have hend := atEnd_of_isKeyword hk
    exact hfirst hend fun hle => h.enumDecl hend hle
  case constEnumDecl =>
    -- the word before `enum` is a modifier
    intro hconst henum
    rw [← peek_bump] at henum
    have hend : p.bump.atEnd = false := atEnd_of_isKeyword henum
    have hreach := reaches_bump p
    refine hfirst (atEnd_of_isKeyword hconst) fun hle => ?_
    exact h.bump.1.enumDecl (m := m.startAt p.peek) hend
      (Nat.le_trans hle (h.peek_le hreach hend))
  case variableDecl =>
    exact fun _ => Places.mono (r := (.complete _, _)) h.variableDecl hfront
  case typeAliasDecl =>
    intro hw hn
    exact hfirst (atEnd_of_isWord hw) fun hle => h.typeAliasDecl (hnext (by simp [hn])) hle
  case namespaceItem =>
    intro w hw _ hn
    exact hfirst (atEnd_of_isWord hw) fun hle => h.namespaceItem (hnext hn) hle

/-- A declaration that is found stands ahead. -/
theorem Stands.declItem? (h : Stands source p) (exported : ExportMode) :
    Finds (Places p.frontier) (p.declItem? exported) := by
  have hreach := reaches_advance p
    (DeclModifiers.read (exported = .asDefault) { exported } 0 p.ahead).2
  have hq := h.of_reaches hreach
  refine (hq.1.eachDecl hq.2 fun hend => ?_).declRest? _
  rw [declStart_read]
  exact ⟨(h.peek (not_atEnd_of_reaches hreach hend)).lo_le, h.peek_le hreach hend⟩

/-- Either of two items that stand behind an offset. -/
theorem Places.ite {t : Prop} [Decidable t] {a b : Item × Parser} (ha : Places lo a)
    (hb : Places lo b) : Places lo (if t then a else b) := by
  split
  · exact ha
  · exact hb

/-- A default export stands ahead. -/
theorem Stands.defaultItem (h : Stands source p) : Places p.frontier (defaultItem p) :=
  (h.declItem? .asDefault).orElse (places_nil _ _)

/-- An export with a name stands ahead. -/
theorem Stands.namedItem (h : Stands source p) : Places p.frontier (namedItem p) :=
  (h.declItem? .named).orElse (.ite (places_nil _ _) (places_nil _ _))

/-- Every export stands ahead. -/
theorem Stands.exportItem (h : Stands source p) : Places p.frontier p.exportItem := by
  have hdefault := h.of_reaches ((reaches_bump p).trans (reaches_skipDecorators p.bump))
  have hnamed := h.of_reaches (reaches_skipDecorators p)
  rw [exportItem_eq]
  refine .ite (hdefault.1.defaultItem.mono hdefault.2) ?_
  -- an exported value and a clause declare nothing
  refine .ite (places_nil _ _) ?_
  refine .ite (places_nil _ _) ?_
  exact hnamed.1.namedItem.mono hnamed.2

/-- Every item behind its decorators stands ahead. -/
theorem Stands.undecoratedItem (h : Stands source p) :
    Places p.frontier (undecoratedItem p) := by
  refine .ite ?_ (.ite ?_ ?_)
  · -- an import
    exact .ite (places_nil _ _) (places_nil _ _)
  · exact h.bump.1.exportItem.mono h.bump.2
  · exact (h.declItem? .none).orElse (places_nil _ _)

/-- **The declarations of an item lie behind the frontier.** -/
theorem Stands.item (h : Stands source p) : Places p.frontier p.item := by
  have hitem := h.of_reaches (reaches_skipDecorators p)
  rw [item_eq]
  exact .ite (places_nil _ _) (hitem.1.undecoratedItem.mono hitem.2)

/-! ## Modules -/

/-- One round: what the item at the cursor declares lies before the next item. The declarations in
the body of a namespace are taken as they come. -/
theorem Stands.itemDecls (h : Stands source p)
    (hinner : ∀ q : Parser, q.left < p.left → Stands source q →
      Decl.Forest q.frontier (itemsFrom true q).1.2.frontier (itemsFrom true q).1.1) :
    Decl.Forest p.frontier p.afterItem.frontier p.itemDecls := by
  have hreach := reaches_item p
  have hplaces := h.item
  cases hi : p.item with
  | mk i q =>
    rw [hi] at hreach hplaces
    have hq := h.reach hreach
    cases i with
    | complete ds =>
      rw [itemDecls_of_complete hi, afterItem_of_complete hi]
      exact Decl.Forest.mono hplaces (Nat.le_refl _) (hq.frontier_le (reaches_pastItem p q))
    | opened s b =>
      obtain ⟨hstarts, hb⟩ := hplaces
      have hbody := hq.of_reaches (reaches_itemsFrom true q)
      have hclose := hbody.1.of_reaches (reaches_expect (itemsFrom true q).1.2 .closeBrace)
      have hname := hstarts.name
      rw [itemDecls_of_opened hi, afterItem_of_opened hi]
      refine hstarts.finish (by omega) (fun b' hb' => ?_) (.inr ⟨b, rfl, ?_⟩)
      · obtain rfl := Option.some.inj hb'
        have := hname.lo_le
        have := hname.lt
        have := hname.hi_le
        omega
      · exact (hinner q (left_item_lt_of_opened hi) hq).mono hb hclose.2

/-- **The declarations from here on are well nested.** -/
theorem Stands.itemsFrom (inBody : Bool) {p : Parser} (h : Stands source p) :
    Decl.Forest p.frontier (itemsFrom inBody p).1.2.frontier (itemsFrom inBody p).1.1 := by
  by_cases hend : p.itemsEnd inBody = true
  · rw [itemsFrom_of_itemsEnd hend]
    exact .nil
  have hlt := left_afterItem_lt (atEnd_of_itemsEnd hend)
  have hafter := h.of_reaches (reaches_afterItem p)
  have hrest := hafter.1.frontier_le (reaches_itemsFrom inBody p.afterItem)
  rw [itemsFrom_eq hend]
  exact (h.itemDecls fun q _ hq => Stands.itemsFrom true hq).append
    (Stands.itemsFrom inBody hafter.1) hafter.2 (Nat.le_refl _) hrest
termination_by p.left

end Parser

/-- The declarations of a source are well nested, only namespaces hold others, and what is taken
from the source for them is there. -/
structure WellPlaced (source : Bytes) (ds : List Decl) : Prop where
  forest : Decl.Forest 0 source.length ds
  alone : ∀ {h : DeclHead} {form : DeclForm} {d : Decl}, (Decl.item h form).Occurs ds →
    d.Occurs ds → d.head.span.lo ≤ h.span.lo ∨ h.span.hi ≤ d.head.span.lo
  inRange : ∀ {h : DeclHead} {form : DeclForm}, (Decl.item h form).Occurs ds →
    h.InRange source form

/-- A forest within the source is well placed. -/
theorem Decl.Forest.wellPlaced {source : Bytes} {ds : List Decl} {hi : Nat}
    (h : Decl.Forest 0 hi ds) (hhi : hi ≤ source.length) : WellPlaced source ds where
  forest := h.mono (Nat.le_refl _) hhi
  alone := h.starts_apart
  inRange := fun hd => h.inRange hd hhi

/-- The tokens before the end marker are those that a parse starts with. -/
theorem takeWhile_prefix_of_end (ts : List Token) {e : Token} (he : e.kind = .eof) :
    (ts ++ [e]).takeWhile (·.kind != .eof) <+: ts := by
  induction ts with
  | nil => simp [he]
  | cons t ts ih =>
    rw [List.cons_append, List.takeWhile_cons]
    split
    · exact List.prefix_cons_inj t |>.mpr ih
    · exact List.nil_prefix

/-- A parse starts before its source, and its declarations lie in it. -/
theorem forest_parseModule (dialect : Dialect) (source : Bytes) (tolerance : Option Nat)
    (before : List Diagnostic) :
    Decl.Forest 0 source.length
      (parseModule source tolerance before (lex dialect source).tokens).decls := by
  obtain ⟨ts, htokens, htiles⟩ := tiles_lex dialect source
  have hcursor := Cursor.ofTokens_append_eofAt htiles.kind_ne_eof source.length
  rw [← htokens] at hcursor
  have hstart :
      Parser.Stands source (moduleStart source tolerance before (lex dialect source).tokens) := by
    rw [moduleStart, hcursor]
    exact ⟨htiles, Nat.zero_le _⟩
  have hend := hstart.reach (Parser.reaches_itemsFrom false _)
  exact (hstart.itemsFrom false).mono (Nat.le_refl _) hend.within

/-- **Declarations are well nested.** So are the declarations of every source, in every dialect,
whatever is found in it, and wherever the parse is given up. -/
theorem nested_parseModule (dialect : Dialect) (source : Bytes) (tolerance : Option Nat)
    (before : List Diagnostic) :
    WellPlaced source (parseModule source tolerance before (lex dialect source).tokens).decls := by
  obtain ⟨ts, htokens, htiles⟩ := tiles_lex dialect source
  obtain ⟨rest, hprefix⟩ := takeWhile_prefix_of_end ts (e := Token.eofAt source.length) rfl
  have hstart :
      Parser.Stands source (moduleStart source tolerance before (lex dialect source).tokens) := by
    refine ⟨?_, Nat.zero_le _⟩
    rw [← hprefix] at htiles
    show Tiles source 0 ((lex dialect source).tokens.takeWhile (·.kind != .eof))
    rw [htokens]
    exact htiles.of_append.1
  have hend := hstart.reach (Parser.reaches_itemsFrom false _)
  exact (hstart.itemsFrom false).wellPlaced hend.within

end SignatureLedger
