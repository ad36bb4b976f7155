import SignatureLedger.Proofs.Declaration.Exports.Items
import SignatureLedger.Token.Lexer

/-!
# Exported items are found

An `export` outside all brackets of a source that is parsed without a finding is taken as the start
of an item, in the module or in a namespace of it (`Parser.TakesExport`), or else it lies inside an
item that takes it for something else (`Parser.Overlooked`): a statement or a value that no line
before it ends, the beginning of an import or export clause, the head of a class or interface, a
list of type parameters, or a name behind a sign that asks for one. There is no other way to lose it
(`seesExport_of_skipItems`).
-/

namespace SignatureLedger

open SignatureLedger.Parser

namespace Parser

/-! ## The items of a module and of its namespaces -/

/-- The states in which the items from here on are taken, those inside namespaces included. -/
def allItemStates (inBody : Bool) (p : Parser) : List Parser :=
  if h : p.itemsEnd inBody then []
  else
    have := left_afterItem_lt (atEnd_of_itemsEnd h)
    match hi : p.item with
    | (.complete _, _) => p :: allItemStates inBody p.afterItem
    | (.opened _ _, q) =>
      have := left_item_lt_of_opened hi
      p :: (allItemStates true q ++ allItemStates inBody p.afterItem)
termination_by p.left

variable {inBody : Bool} {p q s : Parser} {u post : List Token} {e : Token}

/-- The loop over items comes by its own start, unless it ends there. -/
theorem mem_allItemStates_self (h : ¬ p.itemsEnd inBody = true) : p ∈ p.allItemStates inBody := by
  rw [allItemStates, dif_neg h]
  dsimp only
  split <;> exact List.mem_cons_self

/-- The items behind an item. -/
theorem mem_allItemStates_of_after (h : ¬ p.itemsEnd inBody = true)
    (hs : s ∈ p.afterItem.allItemStates inBody) : s ∈ p.allItemStates inBody := by
  rw [allItemStates, dif_neg h]
  dsimp only
  split
  · exact List.mem_cons_of_mem _ hs
  · exact List.mem_cons_of_mem _ (List.mem_append_right _ hs)

/-- The items inside a namespace. -/
theorem mem_allItemStates_of_opened {space : SpaceStart} {body : Nat}
    (h : ¬ p.itemsEnd inBody = true) (hi : p.item = (.opened space body, q))
    (hs : s ∈ q.allItemStates true) : s ∈ p.allItemStates inBody := by
  rw [allItemStates, dif_neg h]
  dsimp only
  split
  · rename_i hi'
    rw [hi] at hi'
    exact absurd hi' (by simp)
  · rename_i hi'
    rw [hi] at hi'
    obtain ⟨-, rfl⟩ := Prod.mk.inj hi'
    exact List.mem_cons_of_mem _ (List.mem_append_left _ hs)

/-! ## Taken and overlooked -/

/-- The item at this state starts, behind its decorators, with the word `export` and the tokens
`rest` from there on. -/
structure StartsExport (s : Parser) (rest : List Token) : Prop where
  notEmpty : s.isPunct .semicolon = false
  ahead : s.skipDecorators.ahead = rest
  item : s.item = s.skipDecorators.bump.exportItem

/-- The tokens `rest` are taken as an exported item of the module or of a namespace in it. -/
def TakesExport (start : Parser) (rest : List Token) : Prop :=
  ∃ s ∈ start.allItemStates false, s.StartsExport rest

/-- The item at this state, with the tokens `u` before the word `e`, takes the word for a part of
its own. -/
inductive Overlooked (s : Parser) (u : List Token) (e : Token) (post : List Token) : Prop
  /-- The item is a statement, and no line that ends before the word ends it. -/
  | statement {w : List Token} (hitem : s.item = (.complete [], s.skipDecorators.skipStatement))
      (hw : s.skipDecorators.ahead = w ++ e :: post) (hne : w ≠ []) (hon : GoesOn w e)
  /-- The item is a clause, and the word is one of its first two tokens, or no line ends before it.
  -/
  | clause {w : List Token} (hitem : s.item = (.complete [], s.skipDecorators.bump.skipClause))
      (hw : s.skipDecorators.bump.ahead = w ++ e :: post)
      (hearly : w.length < 2 ∨ e.newlineBefore = false)
  /-- The word is a name or stands in a part of the item that excuses it. -/
  | part (h : Excuse u e post)
  /-- Type arguments of a value, found by looking ahead, run over the word or over a bracket. -/
  | lookAhead (h : LookAhead u e post)

/-! ## One item -/

/-- What a statement takes for its own stands on lines that do not end it. -/
theorem goesOn_of_statement (hq : s.skipStatement.Quiet) (hs : s.ahead = u ++ e :: post)
    (hle : s.skipStatement.left ≤ post.length) (hout : Outside u)
    (he : e.isKeyword .exportKw = true) : GoesOn u e := by
  unfold skipStatement at hq hle
  by_cases hc : s.peek.kind.isCloser = true
  · rw [if_pos hc] at hq
    exact absurd hq (not_quiet_of_report (reaches_bump _))
  rw [if_neg hc] at hq hle
  have hh : ¬ s.halted = true := by
    intro hh
    rw [if_pos hh] at hq
    exact absurd hq.running (by simp [hh])
  rw [if_neg hh] at hq hle
  exact Grounds.runs_statement none s.ahead (unclosed?_of_quiet hq) u e post hs
    (Grounds.Accounts.length_lt_of_take hs hle) hout he

/-- What a clause takes for its own stands at its beginning or on the line before. -/
theorem early_of_clause (hq : s.skipClause.Quiet) (hs : s.ahead = u ++ e :: post)
    (hle : s.skipClause.left ≤ post.length) (hout : Outside u)
    (he : e.isKeyword .exportKw = true) : u.length < 2 ∨ e.newlineBefore = false := by
  unfold skipClause at hq hle
  have hh : ¬ s.halted = true := by
    intro hh
    rw [if_pos hh] at hq
    exact absurd hq.running (by simp [hh])
  rw [if_neg hh] at hq hle
  exact Grounds.early_clause none [] s.ahead (unclosed?_of_quiet hq) u e post hs
    (Grounds.Accounts.length_lt_of_take hs hle) hout he

/-- Behind its decorators the word `export` starts an exported item. -/
theorem undecoratedItem_of_export (h : p.isKeyword .exportKw = true) :
    undecoratedItem p = p.bump.exportItem := by
  rw [undecoratedItem, if_pos h, if_neg]
  simp only [Parser.isKeyword, Token.isKeyword, beq_iff_eq] at h ⊢
  simp [h]

/-- What is accounted for in an item is overlooked there. -/
theorem Overlooked.of_exporting (h : Grounds.exporting.Holds u e post) (hout : Outside u)
    (he : e.isKeyword .exportKw = true) : s.Overlooked u e post :=
  (h hout he).elim .lookAhead .part

/-- Behind its decorators an item with another first token starts with the word `export`, or it is
a statement, a clause or accounted for. -/
theorem overlooked_of_cons {t : Token} {d w : List Token} (hitem : s.item = undecoratedItem p)
    (hp : p = s.skipDecorators) (hq : s.item.2.Quiet) (hs : p.ahead = t :: w ++ e :: post)
    (hle : s.item.2.left ≤ post.length) (hout : Outside (d ++ t :: w))
    (he : e.isKeyword .exportKw = true) : s.Overlooked (d ++ t :: w) e post := by
  have hbump : p.bump.ahead = w ++ e :: post := ahead_bump_of_cons hs
  have hout' : Outside (t :: w) := hout.of_append
  have hclause : s.item = (.complete [], p.bump.skipClause) → s.Overlooked (d ++ t :: w) e post := by
    intro hclause
    rw [hclause] at hq hle
    exact .clause (hp ▸ hclause) (hp ▸ hbump) (early_of_clause hq hbump hle hout'.2 he)
  by_cases hexport : p.isKeyword .exportKw = true
  · have hitem' : s.item = p.bump.exportItem := hitem.trans (undecoratedItem_of_export hexport)
    rcases Grounds.exportItem_cases p.bump with h | h
    · exact hclause (hitem'.trans h)
    · rw [← hitem'] at h
      have hholds := Grounds.exporting.behind (d ++ [t]) (h.holds hq w e post hbump hle)
      rw [List.append_assoc] at hholds
      exact .of_exporting hholds hout he
  rcases Grounds.undecoratedItem_cases (Bool.not_eq_true _ ▸ hexport) with h | h | h
  · rw [← hitem] at h
    rw [h] at hq hle
    exact .statement (hp ▸ h) (hp ▸ hs) (List.cons_ne_nil t w)
      (goesOn_of_statement hq hs hle hout' he)
  · exact hclause (hitem.trans h)
  · rw [← hitem] at h
    exact .of_exporting (Grounds.exporting.behind d (h.holds hq _ e post hs hle)) hout he

/-- **One item.** An `export` among the tokens that an item takes starts the item behind its
decorators, or it is overlooked in it. -/
theorem startsExport_or_overlooked (hq : s.item.2.Quiet) (hs : s.ahead = u ++ e :: post)
    (hle : s.item.2.left ≤ post.length) (hout : Outside u) (he : e.isKeyword .exportKw = true) :
    s.StartsExport (e :: post) ∨ s.Overlooked u e post := by
  by_cases hsemi : s.isPunct .semicolon = true
  · -- a semicolon alone is no word
    have hitem : s.item.2 = s.bump := by rw [item_eq, if_pos hsemi]
    have hbump := (Grounds.accounts_bump_of_isPunct hsemi rfl).exporting
    rw [← hitem] at hbump
    exact .inr (.of_exporting (hbump.holds hq u e post hs hle) hout he)
  have hitem : s.item = undecoratedItem s.skipDecorators := by rw [item_eq, if_neg hsemi]
  have hundecorated : s.skipDecorators.Reaches s.item.2 := hitem ▸ reaches_undecoratedItem _
  by_cases hdecorators : s.skipDecorators.left ≤ post.length
  · exact .inr (.of_exporting ((Grounds.accounts_skipDecorators s).exporting.holds
      (Quiet.of_reaches hundecorated hq) u e post hs hdecorators) hout he)
  -- the word stands behind the decorators
  obtain ⟨d, hd⟩ := suffix_of_reaches (reaches_skipDecorators s)
  obtain ⟨v, rfl, hv⟩ :=
    Grounds.Accounts.exists_of_left_lt hd.symm hs (Nat.lt_of_not_le hdecorators)
  match v with
  | [] =>
    have hexport : s.skipDecorators.isKeyword .exportKw = true := by
      rwa [isKeyword_of_ahead hv]
    refine .inl ⟨Bool.not_eq_true _ ▸ hsemi, hv, ?_⟩
    rw [hitem, undecoratedItem_of_export hexport]
  | t :: w => exact .inr (overlooked_of_cons hitem rfl hq hv hle hout he)

/-! ## All items -/

/-- An item that is complete takes a token, so that none is lost behind it. -/
theorem afterItem_of_quiet {ds : List Decl} (hi : p.item = (.complete ds, q))
    (hq : p.afterItem.Quiet) (hend : p.atEnd = false) : p.afterItem = q := by
  have hafter := afterItem_of_complete hi
  rw [hafter] at hq ⊢
  have hitem := itemCourse_item p
  rw [hi] at hitem
  have hle := Onward.left_le hitem (Quiet.of_reaches (reaches_pastItem p q) hq)
  have hbump := left_bump_lt hend
  rw [left_bump] at hbump
  rw [pastItem, if_neg]
  dsimp only at hle
  omega

/-- The brace that closes a body is not the word `export`. -/
theorem not_export_of_closeBrace (hq : (q.expect .closeBrace).2.Quiet) (hr : p.Reaches q)
    (hp : p.ahead = u ++ e :: post) (hlt : post.length < q.left)
    (hle : (q.expect .closeBrace).2.left ≤ post.length) : ¬ e.isKeyword .exportKw = true := by
  obtain ⟨hbrace, heq⟩ := expect_of_quiet hq
  obtain ⟨x, hx⟩ := suffix_of_reaches hr
  obtain ⟨w, -, hw⟩ := Grounds.Accounts.exists_of_left_lt hx.symm hp hlt
  have hleft : q.left = (w ++ e :: post).length := congrArg List.length hw
  rw [heq, left_bump] at hle
  rw [List.length_append, List.length_cons] at hleft
  obtain rfl : w = [] := List.length_eq_zero_iff.mp (by omega)
  rw [isPunct_of_ahead hw] at hbrace
  simp [Grounds.isKeyword_of_isPunct hbrace]

/-- One of the items from here on starts with the word `e`, or it has the word among its tokens and
overlooks it. -/
def SeesExport (inBody : Bool) (p : Parser) (e : Token) (post : List Token) : Prop :=
  ∃ s ∈ p.allItemStates inBody, s.StartsExport (e :: post)
    ∨ ∃ v, s.ahead = v ++ e :: post ∧ s.afterItem.left ≤ post.length ∧ s.Overlooked v e post

/-- An export in the item at the cursor, or in the head of the namespace that opens there. -/
theorem seesExport_of_item (hends : ¬ p.itemsEnd inBody = true) (hq : p.item.2.Quiet)
    (hp : p.ahead = u ++ e :: post) (hle : p.item.2.left ≤ post.length)
    (hfirst : p.afterItem.left ≤ post.length) (hout : Outside u)
    (he : e.isKeyword .exportKw = true) : SeesExport inBody p e post :=
  ⟨p, mem_allItemStates_self hends,
    (startsExport_or_overlooked hq hp hle hout he).imp_right fun h => ⟨u, hp, hfirst, h⟩⟩

/-- An export up to the end of a namespace is in its head or among its items; the brace at its end
is none. -/
theorem seesExport_of_opened {space : SpaceStart} {body : Nat}
    (hends : ¬ p.itemsEnd inBody = true) (hi : p.item = (.opened space body, q))
    (hafter : p.afterItem.Quiet) (hp : p.ahead = u ++ e :: post)
    (hfirst : p.afterItem.left ≤ post.length) (hout : Outside u)
    (he : e.isKeyword .exportKw = true)
    (hbody : ∀ {v}, (skipItems true q).Quiet → q.ahead = v ++ e :: post →
      (skipItems true q).left ≤ post.length → Outside v → SeesExport true q e post) :
    SeesExport inBody p e post := by
  have hlast : p.afterItem = ((skipItems true q).expect .closeBrace).2 := afterItem_of_opened hi
  have hend : ((skipItems true q).expect .closeBrace).2.Quiet := hlast ▸ hafter
  have hinner := Quiet.of_reaches (reaches_expect _ .closeBrace) hend
  by_cases hhead : q.left ≤ post.length
  · have hquiet := Quiet.of_reaches (reaches_itemsFrom true q) hinner
    exact seesExport_of_item hends (by rw [hi]; exact hquiet) hp (by rw [hi]; exact hhead) hfirst
      hout he
  -- the word stands behind the brace that opens the body
  have hreach : Reaches p q := by
    have := reaches_item p
    rwa [hi] at this
  obtain ⟨x, hx⟩ := suffix_of_reaches hreach
  obtain ⟨v, rfl, hv⟩ :=
    Grounds.Accounts.exists_of_left_lt hx.symm hp (Nat.lt_of_not_le hhead)
  by_cases hbefore : (skipItems true q).left ≤ post.length
  · obtain ⟨s, hs, h⟩ := hbody hinner hv hbefore hout.of_append
    exact ⟨s, mem_allItemStates_of_opened hends hi hs, h⟩
  · exact absurd he (not_export_of_closeBrace hend (reaches_itemsFrom true q) hv
      (Nat.lt_of_not_le hbefore) (hlast ▸ hfirst))

/-- **Every export is taken or overlooked.** Among the tokens of a quiet run over items each
`export` outside all brackets starts an item, or it is overlooked in the item around it. -/
theorem seesExport_of_skipItems {u : List Token} (inBody : Bool) (p : Parser)
    (hq : (skipItems inBody p).Quiet) (hp : p.ahead = u ++ e :: post)
    (hle : (skipItems inBody p).left ≤ post.length) (hout : Outside u)
    (he : e.isKeyword .exportKw = true) : SeesExport inBody p e post := by
  rw [skipItems_eq] at hq hle
  by_cases hends : p.itemsEnd inBody = true
  · -- no item, and so no token
    rw [if_pos hends] at hle
    have hleft : p.left = (u ++ e :: post).length := congrArg List.length hp
    rw [List.length_append, List.length_cons] at hleft
    omega
  rw [if_neg hends] at hq hle
  have hend := atEnd_of_itemsEnd hends
  have hlt := left_afterItem_lt hend
  by_cases hfirst : p.afterItem.left ≤ post.length
  case neg =>
    -- the word stands behind the first item
    obtain ⟨x, hx⟩ := suffix_of_reaches (reaches_afterItem p)
    obtain ⟨v, rfl, hv⟩ :=
      Grounds.Accounts.exists_of_left_lt hx.symm hp (Nat.lt_of_not_le hfirst)
    obtain ⟨s, hs, h⟩ :=
      seesExport_of_skipItems inBody p.afterItem hq hv hle hout.of_append he
    exact ⟨s, mem_allItemStates_of_after hends hs, h⟩
  have hafter := Quiet.of_reaches (reaches_itemsFrom inBody p.afterItem) hq
  rcases hi : p.item with ⟨ds | ⟨space, body⟩, q⟩
  · have hitem : p.item.2 = p.afterItem := by rw [afterItem_of_quiet hi hafter hend, hi]
    exact seesExport_of_item hends (hitem ▸ hafter) hp (hitem ▸ hfirst) hfirst hout he
  · have hlt' := left_item_lt_of_opened hi
    exact seesExport_of_opened hends hi hafter hp hfirst hout he fun hquiet hv hbefore hv' =>
      seesExport_of_skipItems true q hquiet hv hbefore hv' he
termination_by p.left

end Parser

/-! ## The source as a whole -/

/-- An item of the module, or of a namespace in it, that does not start with the word `e` before the
tokens `post` takes it for a part of its own. -/
def OverlooksExport (start : Parser) (e : Token) (post : List Token) : Prop :=
  ∃ s ∈ start.allItemStates false, ¬ s.StartsExport (e :: post) ∧ ∃ u, s.ahead = u ++ e :: post
    ∧ s.afterItem.left ≤ post.length ∧ s.Overlooked u e post

namespace ExportSample

/-- Two classes on one line, both exported. -/
def source : Bytes := bytes "import './setup'\nexport class A \x7b\x7d export class B \x7b\x7d"

/-- The tokens of the sample. -/
def tokens : List Token := (lex .typeScript source).tokens

/-- The tokens up to the body of the first class. -/
def pre : List Token := tokens.take 7

/-- The word before the second class. -/
def word : Token := ⟨.keyword .exportKw, ⟨35, 41⟩, bytes "export", false⟩

/-- The tokens behind the export. -/
def post : List Token := (tokens.drop 8).takeWhile (·.kind != .eof)

end ExportSample

/-- An item starts there, on the line of the class before it. -/
example :
    ∃ s ∈ (moduleStart ExportSample.source (some 64) [] ExportSample.tokens).allItemStates false,
    s.skipDecorators.ahead = ExportSample.word :: ExportSample.post := by decide +kernel

/-! ## Exports that are overlooked -/

/-- The source is lexed and parsed without a finding, and its token `i` is an `export` outside all
brackets and not behind a dot; still no item starts with it. -/
def SwallowsExport (source : Bytes) (i : Nat) : Prop :=
  let lexed := lex .typeScript source
  let start := moduleStart source (some 64) [] lexed.tokens
  lexed.found = [] ∧ (parseModule source (some 64) [] lexed.tokens).found = []
    ∧ (∃ e ∈ start.ahead[i]?, e.isKeyword .exportKw = true)
    ∧ ((start.ahead.take i).foldl Nesting.step {}).isFlat = true
    ∧ (∀ l ∈ (start.ahead.take i).getLast?, l.isPunct .dot = false ∧ l.isPunct .questionDot = false)
    ∧ ∀ s ∈ start.allItemStates false, s.skipDecorators.ahead ≠ start.ahead.drop i

/-- The look-ahead for type arguments runs from a comparison over the items behind it, up to a
greater sign. -/
example : SwallowsExport (bytes "const lt = a < b\nexport enum E \x7b A, B \x7d\nx > (y)") 6 := by
  unfold SwallowsExport
  decide +kernel

end SignatureLedger
