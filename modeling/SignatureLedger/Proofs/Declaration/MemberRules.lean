import SignatureLedger.Proofs.Declaration.TypeRules

/-!
# The rules of members

The functions that take a member build up its record as they go. Of the state that they leave each
is given here as a chain of moves, so that what is shown of the moves is shown of the member.
-/

namespace SignatureLedger

namespace Parser

/-! ## Parameters, results and bodies -/

/-- Takes a required parameter list. -/
def skipParameters (p : Parser) : Parser :=
  if p.isPunct .openParen then p.takeGroup else (p.expect .openParen).2

/-- Takes a colon and a type, if a colon comes next. -/
def skipColonType (p : Parser) : Parser := if p.isPunct .colon then p.bump.skipType else p

/-- Takes a body, or else ends the item. -/
def skipBody (p : Parser) : Parser := if p.isPunct .openBrace then p.takeGroup else p.finishItem

/-- Takes everything behind the name of a function or method. -/
def skipSignature (p : Parser) : Parser := skipBody (skipColonType (skipParameters p.takeAngle))

/-- A type behind a colon ends where it is skipped to. -/
theorem typeAnnotation?_snd (p : Parser) : p.typeAnnotation?.2 = skipColonType p := by
  unfold typeAnnotation? skipColonType
  split <;> rfl

/-- A body that is there ends the member, and else the end of the item does. -/
theorem skipBody_eq (p : Parser) :
    (if p.body?.1.isSome then p.body?.2 else p.body?.2.finishItem) = skipBody p := by
  unfold body? skipBody
  by_cases h : p.isPunct .openBrace = true <;> simp [h]

/-! ## The name of a member -/

/-- Takes the name of a member that starts with a token of this kind, and tells whether it is an
index signature; `none` means that there is no name. -/
def nameBy (k : TokenKind) (p : Parser) : Option Bool × Parser :=
  match k with
  | .stringLit | .numberLit | .privateName => (some false, p.bump)
  | .punct .openBracket =>
    (if (Extent.group p.peek p.ahead.tail).unclosed?.isSome then none
      else some (p.peekNext.kind == .ident && (p.cursor.peekAt 2).isPunct .colon), p.takeGroup)
  | .ident | .keyword _ => (some false, p.bump)
  | .eof => (none, (p.expect .closeBrace).2)
  | _ =>
    (none, ((p.report .unexpectedToken p.peek.span p.peek.lexeme).recover [.semicolon]).skipPunct
      .semicolon)

/-- Reading the name of a member, by the kind of its first token. -/
theorem memberName?_eq (p : Parser) :
    (p.memberName?.1.map (·.isIndex), p.memberName?.2) = nameBy p.peek.kind p := by
  unfold memberName? nameBy
  dsimp only
  generalize p.peek.kind = k
  cases k with
  | punct j =>
    cases j with
    | openBracket =>
      dsimp only
      split <;> rfl
    | _ => rfl
  | _ => rfl

/-! ## Members -/

/-- Takes the mark behind the name of a member. -/
def skipMark (p : Parser) : Parser := if p.isPunct .question || p.isPunct .bang then p.bump else p

/-- Takes what follows the name of a member, an index signature or not. -/
def skipMemberRest (isIndex : Bool) (p : Parser) : Parser :=
  if !isIndex && (p.isPunct .openParen || p.isPunct .less) then skipSignature p
  else (skipColonType p).skipInitializer.finishItem

/-- Takes the rest of a member, if it has a name. -/
def skipNamedRest : Option Bool → Parser → Parser
  | none, p => p
  | some isIndex, p => skipMemberRest isIndex (skipMark p)

/-- Takes a member from its name on. -/
def skipNamed (p : Parser) : Parser :=
  skipNamedRest (nameBy p.peek.kind p).1 (nameBy p.peek.kind p).2

/-- Takes the word `get` or `set` before a name. -/
def skipAccessor (p : Parser) : Parser := if p.accessor?.isSome then p.bump else p

/-- Takes a member behind its modifiers. -/
def skipUnmodified (block : Bool) (p : Parser) : Parser :=
  if block then p.bump.takeGroup else skipNamed ((skipAccessor p).skipPunct .star)

/-- Takes a member behind its decorators. -/
def skipUndecorated (p : Parser) : Parser :=
  skipUnmodified (ModifierRun.read {} p.ahead).block
    (p.advance (ModifierRun.read {} p.ahead).width)

/-- Where the rest of a method ends. -/
theorem methodRest_snd (p : Parser) (lo : Nat) (m : Member) :
    (p.methodRest lo m).2 = skipSignature p := by
  unfold methodRest skipSignature skipParameters
  dsimp only
  rw [skipBody_eq, typeAnnotation?_snd]

/-- Where the rest of a property ends. -/
theorem propertyRest_snd (p : Parser) (lo : Nat) (m : Member) :
    (p.propertyRest lo m).2 = (skipColonType p).skipInitializer.finishItem := by
  unfold propertyRest
  dsimp only
  rw [typeAnnotation?_snd]

/-- Where a member ends. -/
theorem member?_snd (p : Parser) : p.member?.2 = skipUndecorated p.skipDecorators := by
  unfold member? skipUndecorated skipUnmodified skipNamed
  dsimp only
  generalize p.skipDecorators.advance _ = q
  split
  · rfl
  · have hq : (if q.accessor?.isSome then q.bump else q) = skipAccessor q := rfl
    rw [← memberName?_eq, hq]
    cases (skipAccessor q |>.skipPunct .star).memberName? with
    | mk name r =>
      cases name with
      | none => rfl
      | some name =>
        dsimp only [Option.map_some, skipNamedRest, skipMemberRest, skipMark]
        rw [apply_ite Prod.snd, methodRest_snd, propertyRest_snd]
        rfl

/-! ## Modifiers and accessors -/

/-- A modifier of a member is a word. -/
theorem kind_of_isMemberModifier {t : Token} (h : t.isMemberModifier = true) : t.kind = .ident := by
  simp only [Token.isMemberModifier, Bool.or_eq_true] at h
  rcases h with ((((((((h | h) | h) | h) | h) | h) | h) | h) | h) | h <;>
    exact Token.kind_of_isWord h

/-- The modifiers of a member are words, and so is the one before a block. -/
theorem exists_words_of_memberRead (run : ModifierRun) (ts : List Token) :
    ∃ k, (run.read ts).width = run.width + k ∧ (∀ t ∈ ts.take k, t.kind = .ident)
      ∧ ((run.read ts).block = true →
        run.block = true ∨ ∃ t rest, ts.drop k = t :: rest ∧ t.kind = .ident) := by
  fun_induction ModifierRun.read run ts with
  | case2 run t n us _ ht =>
    have hstatic := Token.kind_of_isWord (Bool.and_eq_true .. ▸ ht).1
    exact ⟨0, rfl, fun u hu => absurd hu (by simp), fun _ => .inr ⟨t, n :: us, rfl, hstatic⟩⟩
  | case4 run t n us hmod _ _ ih =>
    obtain ⟨k, hk, hus, hblock⟩ := ih
    have hword := kind_of_isMemberModifier (by simpa using hmod)
    exact ⟨k + 1, by rw [hk]; dsimp only; omega, kind_of_mem_take_succ hword hus, hblock⟩
  | _ => exact ⟨0, rfl, fun u hu => absurd hu (by simp), fun h => .inl h⟩

/-- The word before an accessor is `get` or `set`. -/
theorem exists_isWord_of_accessor? {p : Parser} (h : p.accessor?.isSome = true) :
    ∃ w, p.isWord w = true := by
  unfold accessor? at h
  split at h
  · split at h
    · exact ⟨_, ‹_›⟩
    · split at h
      · exact ⟨_, ‹_›⟩
      · exact absurd h (by simp)
  · exact absurd h (by simp)

/-! ## All members -/

/-- Takes the members of a class body. -/
def skipMembers (p : Parser) : Parser := (membersFrom p).2

/-- The loop over members, unfolded once. -/
theorem skipMembers_eq (p : Parser) :
    skipMembers p =
      if p.bodyEnds then p
      else if p.isPunct .semicolon then skipMembers p.bump
      else skipMembers (pastItem p p.member?.2) := by
  unfold skipMembers
  rw [membersFrom.eq_def]
  split
  · rfl
  · split <;> rfl

end Parser

end SignatureLedger
