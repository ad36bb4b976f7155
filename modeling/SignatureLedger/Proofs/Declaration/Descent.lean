import SignatureLedger.Proofs.Declaration.Course.Items
import SignatureLedger.Proofs.Token.Descent

/-!
# The parser ends

Every loop of the parser has fewer tokens left after each round, and every function that calls
itself, directly or through others, does so with fewer tokens left. Only the rules of types call
each other without taking a token, and then from a higher level of the grammar to a lower one. So
the parser ends whatever the tokens are, and it ends where the tokens end or where it is given
up.
-/

namespace SignatureLedger

/-! ## Brackets -/

/-- One token of a bracketed group. -/
def groupBody : Nat × List Token → Calls (Nat × List Token) (Option Nat) (Option Nat)
  | (_, []) => .done none
  | (inner, t :: ts) =>
    if t.kind.isOpener then .again (inner + 1, ts) fun n? => n?.map (· + 1)
    else if t.kind.isCloser then
      match inner with
      | 0 => .done (some 1)
      | inner + 1 => .again (inner, ts) fun n? => n?.map (· + 1)
    else .again (inner, ts) fun n? => n?.map (· + 1)

/-- The end of a group is found by recursion on the tokens left. -/
theorem recursion_groupEnd? :
    Recursion (fun s => s.2.length) groupBody (fun s => groupEnd? s.1 s.2) := by
  rintro ⟨inner, _ | ⟨t, ts⟩⟩
  · exact .done _
  have hlt := length_lt_cons t ts
  dsimp only [groupBody]
  rw [groupEnd?.eq_def]
  refine .ite (fun _ => .again hlt) fun _ => ?_
  refine .ite (fun _ => ?_) fun _ => .again hlt
  -- a closing bracket ends the group or one in it
  cases inner with
  | zero => exact .done _
  | succ inner => exact .again hlt

namespace Extent

/-- One token or group in a list of type parameters or arguments. -/
def angleBody (start : Token) : Nat × List Token → Calls (Nat × List Token) Extent Extent
  | (_, []) => .done ⟨0, some start⟩
  | (depth, t :: rest) =>
    if t.isPunct .less then .again (depth + 1, rest) (·.shift 1)
    else if t.isPunct .lessLess then .again (depth + 2, rest) (·.shift 1)
    else if t.isPunct .greater then
      if depth ≤ 1 then .done ⟨1, none⟩ else .again (depth - 1, rest) (·.shift 1)
    else if t.kind.isOpener then
      match groupEnd? 0 rest with
      | some n => .again (depth, rest.drop n) (·.shift (1 + n))
      | none => .done ⟨1 + rest.length, some t⟩
    else if t.isPunct .semicolon || t.kind.isCloser then .done ⟨0, some start⟩
    else .again (depth, rest) (·.shift 1)

/-- The end of angles is found by recursion on the tokens left. -/
theorem recursion_angle (start : Token) :
    Recursion (fun s => s.2.length) (angleBody start) (fun s => angle start s.1 s.2) := by
  rintro ⟨depth, _ | ⟨t, rest⟩⟩
  · dsimp only [angleBody]
    rw [angle]
    exact .done _
  have hlt := length_lt_cons t rest
  dsimp only [angleBody]
  rw [angle]
  refine .ite (fun _ => .again hlt) fun _ => ?_
  refine .ite (fun _ => .again hlt) fun _ => ?_
  refine .ite (fun _ => ?_) fun _ => .ite (fun _ => ?_) fun _ => ?_
  · -- a greater sign ends the list or one in it
    exact .ite (fun _ => .done _) fun _ => .again hlt
  · cases groupEnd? 0 rest with
    | some n => exact .again (length_drop_lt_cons t rest n)
    | none => exact .done _
  · exact .ite (fun _ => .done _) fun _ => .again hlt

/-- One decorator. -/
def decoratorsBody : List Token → Calls (List Token) Extent Extent
  | [] => .done ⟨0, none⟩
  | t :: rest =>
    if t.isPunct .atSign then
      let one := decorator rest
      if one.unclosed?.isSome then .done (one.shift 1)
      else .again (rest.drop one.width) (·.shift (1 + one.width))
    else .done ⟨0, none⟩

/-- Decorators are passed by recursion on the tokens left. -/
theorem recursion_decorators : Recursion List.length decoratorsBody decorators := by
  rintro (_ | ⟨t, rest⟩)
  · dsimp only [decoratorsBody]
    rw [decorators]
    exact .done _
  · dsimp only [decoratorsBody]
    rw [decorators]
    refine .ite (fun _ => ?_) fun _ => .done _
    exact .ite (fun _ => .done _) fun _ => .again (length_drop_lt_cons t rest _)

end Extent

/-- One name of a path. -/
def pathBody : List Token → Calls (List Token) Nat Nat
  | a :: b :: rest =>
    if a.isPunct .dot && b.kind.isName then .again rest (2 + ·) else .done 0
  | _ => .done 0

/-- A path of names is passed by recursion on the tokens left. -/
theorem recursion_pathWidth : Recursion List.length pathBody pathWidth := by
  rintro (_ | ⟨a, _ | ⟨b, rest⟩⟩)
  · exact .done _
  · exact .done _
  · have hlt := Nat.lt_trans (length_lt_cons b rest) (length_lt_cons a (b :: rest))
    exact .ite (fun _ => .again hlt) (fun _ => .done _)

/-! ## Expressions, statements and clauses -/

/-- One token of type arguments inside an expression. -/
def typeArgsBody :
    Nat × Nat × List Token → Calls (Nat × Nat × List Token) (Option Nat) (Option Nat)
  | (0, _, _) => .done none
  | (_ + 1, _, []) => .done none
  | (steps + 1, depth, t :: rest) =>
    if t.isPunct .less then .again (steps, depth + 1, rest) fun n? => n?.map (· + 1)
    else if t.isPunct .greater then
      if depth ≤ 1 then
        .done (if rest.head?.all Token.followsTypeArgs then some 1 else none)
      else .again (steps, depth - 1, rest) fun n? => n?.map (· + 1)
    else if t.kind.inTypeArgs then .again (steps, depth, rest) fun n? => n?.map (· + 1)
    else .done none

/-- The end of type arguments is found by recursion on the tokens left. -/
theorem recursion_typeArgsEnd? :
    Recursion (fun s => s.2.2.length) typeArgsBody (fun s => typeArgsEnd? s.1 s.2.1 s.2.2) := by
  rintro ⟨_ | steps, depth, ts⟩
  · exact .done _
  cases ts with
  | nil => exact .done _
  | cons t rest =>
    have hlt := length_lt_cons t rest
    refine .ite (fun _ => .again hlt) fun _ => ?_
    refine .ite (fun _ => ?_) fun _ => .ite (fun _ => .again hlt) fun _ => .done _
    -- a greater sign ends the list or one in it
    exact .ite (fun _ => .done _) fun _ => .again hlt

namespace Extent

/-- One token or group of an expression. -/
def exprBody : Option Token × List Token → Calls (Option Token × List Token) Extent Extent
  | (_, []) => .done ⟨0, none⟩
  | (previous?, t :: rest) =>
    if t.isPunct .comma || t.isPunct .semicolon || t.kind.isCloser
        || previous?.any (·.endsLine t) then .done ⟨0, none⟩
    else if t.kind.isOpener then
      match groupEnd? 0 rest with
      | some n => .again (rest[n - 1]?, rest.drop n) (·.shift (1 + n))
      | none => .done ⟨1 + rest.length, some t⟩
    else if t.isPunct .less && previous?.all (·.kind.beforeOperand) then
      let params := angle t 1 rest
      if params.unclosed?.isSome then .done (params.shift 1)
      else .again (rest[params.width - 1]?, rest.drop params.width) (·.shift (1 + params.width))
    else if t.isPunct .less && previous?.any (fun q => q.kind.isName || q.isPunct .greater) then
      match typeArgsEnd? (typeArgsLimit - 1) 1 rest with
      | some n => .again (rest[n - 1]?, rest.drop n) (·.shift (1 + n))
      | none => .again (some t, rest) (·.shift 1)
    else .again (some t, rest) (·.shift 1)

/-- An expression is passed by recursion on the tokens left. Each round takes a token, a group, type
parameters or type arguments, so that the rest is shorter. -/
theorem recursion_expr :
    Recursion (fun s => s.2.length) exprBody (fun s => expr s.1 s.2) := by
  rintro ⟨previous?, _ | ⟨t, rest⟩⟩
  · dsimp only [exprBody]
    rw [expr]
    exact .done _
  have hlt := length_lt_cons t rest
  have hdrop := length_drop_lt_cons t rest
  dsimp only [exprBody]
  rw [expr]
  refine .ite (fun _ => .done _) fun _ => .ite (fun _ => ?_) fun _ => ?_
  · -- a group
    cases groupEnd? 0 rest with
    | some n => exact .again (hdrop n)
    | none => exact .done _
  refine .ite (fun _ => ?_) fun _ => .ite (fun _ => ?_) fun _ => .again hlt
  · -- type parameters, where an operand is due
    exact .ite (fun _ => .done _) fun _ => .again (hdrop _)
  · -- type arguments, if the look-ahead finds their end
    cases typeArgsEnd? (typeArgsLimit - 1) 1 rest with
    | some n => exact .again (hdrop n)
    | none => exact .again hlt

/-- One token or group of a statement. -/
def statementBody : Option Token × List Token → Calls (Option Token × List Token) Extent Extent
  | (_, []) => .done ⟨0, none⟩
  | (previous?, t :: rest) =>
    if t.isPunct .semicolon then .done ⟨1, none⟩
    else if t.kind.isCloser || previous?.any (·.endsLine t) then .done ⟨0, none⟩
    else if t.kind.isOpener then
      match groupEnd? 0 rest with
      | some n => .again (rest[n - 1]?, rest.drop n) (·.shift (1 + n))
      | none => .done ⟨1 + rest.length, some t⟩
    else .again (some t, rest) (·.shift 1)

/-- A statement is passed by recursion on the tokens left. -/
theorem recursion_statement :
    Recursion (fun s => s.2.length) statementBody (fun s => statement s.1 s.2) := by
  rintro ⟨previous?, _ | ⟨t, rest⟩⟩
  · dsimp only [statementBody]
    rw [statement]
    exact .done _
  dsimp only [statementBody]
  rw [statement]
  refine .ite (fun _ => .done _) fun _ => .ite (fun _ => .done _) fun _ => ?_
  refine .ite (fun _ => ?_) fun _ => .again (length_lt_cons t rest)
  cases groupEnd? 0 rest with
  | some n => exact .again (length_drop_lt_cons t rest n)
  | none => exact .done _

/-- One token or group of an import or export clause. -/
def clauseBody :
    Nat × Option Token × List Token → Calls (Nat × Option Token × List Token) Extent Extent
  | (_, _, []) => .done ⟨0, none⟩
  | (taken, previous?, t :: rest) =>
    if t.isPunct .semicolon then .done ⟨1, none⟩
    else if t.isPunct .closeBrace then .done ⟨0, none⟩
    else if 2 ≤ taken && t.newlineBefore
        && (t.isItemStart || (previous?.any (·.isPunct .closeBrace) && !t.isWord "from")) then
      .done ⟨0, none⟩
    else if t.kind = .stringLit then .done (((attributes? rest).andThen semicolon? rest).shift 1)
    else if t.isPunct .openParen then .done (((group t rest).andThen semicolon? rest).shift 1)
    else if t.kind.isOpener then
      match groupEnd? 0 rest with
      | some n => .again (taken + 1 + n, rest[n - 1]?, rest.drop n) (·.shift (1 + n))
      | none => .done ⟨1 + rest.length, some t⟩
    else .again (taken + 1, some t, rest) (·.shift 1)

/-- A clause is passed by recursion on the tokens left. -/
theorem recursion_clause :
    Recursion (fun s => s.2.2.length) clauseBody (fun s => clause s.1 s.2.1 s.2.2) := by
  rintro ⟨taken, previous?, _ | ⟨t, rest⟩⟩
  · dsimp only [clauseBody]
    rw [clause]
    exact .done _
  dsimp only [clauseBody]
  rw [clause]
  -- a semicolon, the end of the block around and an item on a new line end the clause
  refine .ite (fun _ => .done _) fun _ => .ite (fun _ => .done _) fun _ => ?_
  refine .ite (fun _ => .done _) fun _ => ?_
  -- so do the string it imports from and the module it requires
  refine .ite (fun _ => .done _) fun _ => .ite (fun _ => .done _) fun _ => ?_
  refine .ite (fun _ => ?_) fun _ => .again (length_lt_cons t rest)
  cases groupEnd? 0 rest with
  | some n => exact .again (length_drop_lt_cons t rest n)
  | none => exact .done _

/-- One token or group of the head of a class or interface. -/
def heritageBody : List Token → Calls (List Token) Extent Extent
  | [] => .done ⟨0, none⟩
  | t :: rest =>
    if t.isPunct .openBrace || t.isPunct .semicolon || t.isPunct .closeBrace then .done ⟨0, none⟩
    else if t.isPunct .less then
      let args := angle t 1 rest
      if args.unclosed?.isSome then .done (args.shift 1)
      else .again (rest.drop args.width) (·.shift (1 + args.width))
    else if t.kind.isOpener then
      match groupEnd? 0 rest with
      | some n => .again (rest.drop n) (·.shift (1 + n))
      | none => .done ⟨1 + rest.length, some t⟩
    else .again rest (·.shift 1)

/-- The heritage of a class is passed by recursion on the tokens left. -/
theorem recursion_heritage : Recursion List.length heritageBody heritage := by
  rintro (_ | ⟨t, rest⟩)
  · dsimp only [heritageBody]
    rw [heritage]
    exact .done _
  dsimp only [heritageBody]
  rw [heritage]
  refine .ite (fun _ => .done _) fun _ => .ite (fun _ => ?_) fun _ => ?_
  · -- the type arguments of what is extended
    exact .ite (fun _ => .done _) fun _ => .again (length_drop_lt_cons t rest _)
  refine .ite (fun _ => ?_) fun _ => .again (length_lt_cons t rest)
  cases groupEnd? 0 rest with
  | some n => exact .again (length_drop_lt_cons t rest n)
  | none => exact .done _

end Extent

/-- One token on the way to a place where reading can go on. -/
def recoveryBody (stops : List Punct) : Nesting × List Token → Calls (Nesting × List Token) Nat Nat
  | (_, []) => .done 0
  | (n, t :: rest) =>
    if n.isFlat && stops.any t.isPunct then .done 0
    else if t.isPunct .closeBrace && n.braces == 0 then .done 0
    else .again (n.step t, rest) (1 + ·)

/-- The tokens to a stop are counted by recursion on the tokens left. -/
theorem recursion_recoveryWidth (stops : List Punct) :
    Recursion (fun s => s.2.length) (recoveryBody stops)
      (fun s => recoveryWidth stops s.1 s.2) := by
  rintro ⟨n, _ | ⟨t, rest⟩⟩
  · exact .done _
  · refine .ite (fun _ => .done _) fun _ => ?_
    exact .ite (fun _ => .done _) fun _ => .again (length_lt_cons t rest)

/-! ## Types -/

/-- One operator before a primary type. -/
def operatorsBody : List Token → Calls (List Token) Nat Nat
  | [] => .done 0
  | t :: rest =>
    if (t.isTypeOperator && rest.head?.any Token.startsType) || t.isKeyword .typeofKw
        || t.isKeyword .newKw
        || (t.isWord "abstract" && rest.head?.any (·.isKeyword .newKw)) then
      .again rest (1 + ·)
    else .done 0

/-- Operators of a type are counted by recursion on the tokens left. -/
theorem recursion_typeOperatorsWidth : Recursion List.length operatorsBody typeOperatorsWidth := by
  rintro (_ | ⟨t, rest⟩)
  · exact .done _
  · exact .ite (fun _ => .again (length_lt_cons t rest)) (fun _ => .done _)

/-- One pair of array brackets. -/
def Extent.arrayBody : List Token → Calls (List Token) Extent Extent
  | [] => .done ⟨0, none⟩
  | t :: rest =>
    if t.isPunct .openBracket && !t.newlineBefore then
      match groupEnd? 0 rest with
      | some n => .again (rest.drop n) (·.shift (1 + n))
      | none => .done ⟨1 + rest.length, some t⟩
    else .done ⟨0, none⟩

/-- The suffixes of an array are passed by recursion on the tokens left. -/
theorem Extent.recursion_arraySuffix : Recursion List.length arrayBody arraySuffix := by
  rintro (_ | ⟨t, rest⟩)
  · dsimp only [arrayBody]
    rw [arraySuffix]
    exact .done _
  dsimp only [arrayBody]
  rw [arraySuffix]
  refine .ite (fun _ => ?_) (fun _ => .done _)
  cases groupEnd? 0 rest with
  | some n => exact .again (length_drop_lt_cons t rest n)
  | none => exact .done _

namespace Parser

/-- A rule of the grammar of types, with the state in which it is called. -/
inductive TypeCall where
  | type (p : Parser)
  | union (p : Parser)
  | unionTail (p : Parser)
  | primary (p : Parser)
  | typeTail (head : TypeHead) (p : Parser)

namespace TypeCall

/-- The number of tokens that are left. -/
def left : TypeCall → Nat
  | type p | union p | unionTail p | primary p | typeTail _ p => p.left

/-- How high the rule stands in the grammar. -/
def level : TypeCall → Nat
  | type _ => 4
  | union _ => 3
  | unionTail _ => 2
  | primary _ => 1
  | typeTail _ _ => 0

/-- Tokens count first, and levels where no token is taken. -/
def size (c : TypeCall) : Nat := 5 * c.left + c.level

/-- Five levels are enough for the calls that take no token. -/
theorem level_lt (c : TypeCall) : c.level < 5 := by cases c <;> simp [level]

/-- One call is smaller than another if it has fewer tokens left, or as many on a lower level. -/
theorem size_lt_iff (c d : TypeCall) :
    c.size < d.size ↔ c.left < d.left ∨ (c.left = d.left ∧ c.level < d.level) := by
  have := c.level_lt
  have := d.level_lt
  unfold size
  omega

/-- The state behind what the rule takes. -/
def taken : TypeCall → Parser
  | type p => p.skipType
  | union p => p.skipUnion
  | unionTail p => p.skipUnionTail
  | primary p => p.skipPrimary
  | typeTail head p => p.skipTypeTail head

/-- What the rules say, with their calls of each other. A call at the end of a rule is a jump. -/
def body : TypeCall → Calls TypeCall Parser Parser
  | type p =>
    if p.halted then .done p
    else .call (.union p) fun q =>
      if q.isKeyword .extendsKw then .call (.union q.bump) fun r =>
        if r.isPunct .question then .call (.type r.bump) fun s =>
          if (s.expect .colon).1 then .jump (.type (s.expect .colon).2)
          else .done (s.expect .colon).2
        else .done r
      else .done q
  | union p => .call (.primary p.skipUnionSign) fun q => .jump (.unionTail q)
  | unionTail p =>
    if p.isPunct .bar || p.isPunct .amp then
      .call (.primary p.bump) fun q => .jump (.unionTail q)
    else .done p
  | primary p => .jump (.typeTail p.typeHead.1 p.typeHead.2)
  | typeTail head p =>
    if head = .missing then .done p
    else if (head = .generic ∨ head = .parens) ∧ p.isPunct .arrow = true then .jump (.type p.bump)
    else if head = .generic then .done p
    else if p.takeArrays.isWord "is" = true ∧ p.takeArrays.peek.newlineBefore = false then
      .jump (.type p.takeArrays.bump)
    else .done p.takeArrays

/-- Fewer tokens left make a smaller call. -/
theorem size_lt_of_left_lt {c d : TypeCall} (h : c.left < d.left) : c.size < d.size :=
  (size_lt_iff c d).mpr (.inl h)

/-- A lower level makes a smaller call. -/
theorem size_lt_of_level_lt {c d : TypeCall} (h : c.left ≤ d.left) (hlevel : c.level < d.level) :
    c.size < d.size := by
  unfold size
  omega

/-- A type is taken by recursion on the tokens left and the level of the call. The level is needed
where one reader calls another at the same place, as a type calls for the union at its start. -/
theorem recursion_taken : Recursion size body taken := by
  rintro (p | p | p | p | ⟨head, p⟩)
  · -- a type, and behind `extends` three more
    dsimp only [body, taken]
    rw [skipType_eq]
    refine .ite (fun _ => .done _) (fun _ => ?_)
    refine .call (size_lt_of_level_lt (Nat.le_refl _) (by simp [level])) ?_
    refine .ite (fun hextends => ?_) (fun _ => .done _)
    have h₁ : p.skipUnion.bump.left < p.left :=
      Nat.lt_of_lt_of_le (left_bump_lt_of_isKeyword hextends) (left_skipUnion_le p)
    refine .call (size_lt_of_left_lt h₁) ?_
    refine .ite (fun hquestion => ?_) (fun _ => .done _)
    have h₂ : p.skipUnion.bump.skipUnion.bump.left < p.left :=
      Nat.lt_trans (left_bump_lt_of_isPunct hquestion)
        (Nat.lt_of_le_of_lt (left_skipUnion_le _) h₁)
    refine .call (size_lt_of_left_lt h₂) ?_
    refine .ite (fun _ => ?_) (fun _ => .done _)
    have h₃ := left_expect_le p.skipUnion.bump.skipUnion.bump.skipType .colon
    have h₄ := Nat.le_trans h₃ (left_skipType_le _)
    exact .jump (size_lt_of_left_lt (Nat.lt_of_le_of_lt h₄ h₂))
  · dsimp only [body, taken]
    rw [skipUnion_eq]
    have h₁ := left_skipUnionSign_le p
    have h₂ := left_skipPrimary_le p.skipUnionSign
    exact .call (size_lt_of_level_lt h₁ (by simp [level]))
      (.jump (size_lt_of_level_lt (Nat.le_trans h₂ h₁) (by simp [level])))
  · dsimp only [body, taken]
    rw [skipUnionTail_eq]
    refine .ite (fun hsign => ?_) (fun _ => .done _)
    have hlt : p.bump.left < p.left := by
      rcases Bool.or_eq_true .. ▸ hsign with h | h <;> exact left_bump_lt_of_isPunct h
    exact .call (size_lt_of_left_lt hlt) (.jump (size_lt_of_left_lt
      (Nat.lt_of_le_of_lt (left_skipPrimary_le p.bump) hlt)))
  · dsimp only [body, taken]
    rw [skipPrimary_eq]
    exact .jump (size_lt_of_level_lt (left_typeHead_le p) (by simp [level]))
  · dsimp only [body, taken]
    rw [skipTypeTail_eq]
    refine .ite (fun _ => .done _) (fun _ => ?_)
    refine .ite (fun harrow => ?_) (fun _ => ?_)
    · -- the result of a function type
      exact .jump (size_lt_of_left_lt (left_bump_lt_of_isPunct harrow.2))
    refine .ite (fun _ => .done _) (fun _ => ?_)
    refine .ite (fun his => ?_) (fun _ => .done _)
    -- the type behind the word `is` of a type guard
    have hlt := Nat.lt_of_lt_of_le (left_bump_lt_of_isWord his.1) (left_takeArrays_le p)
    exact .jump (size_lt_of_left_lt hlt)

end TypeCall

end Parser

/-! ## Classes -/

/-- One modifier of a member. -/
def ModifierRun.body :
    ModifierRun × List Token → Calls (ModifierRun × List Token) ModifierRun ModifierRun
  | (run, t :: n :: rest) =>
    if !t.isMemberModifier then .done run
    else if t.isWord "static" && n.isPunct .openBrace then .done { run with block := true }
    else if !n.startsMemberName || (t.isWord "async" && n.newlineBefore) then .done run
    else
      .jump ({ run with modifiers := run.modifiers.add t, width := run.width + 1 }, n :: rest)
  | (run, _) => .done run

/-- The modifiers of a member are read by recursion on the tokens left. -/
theorem ModifierRun.recursion_read :
    Recursion (fun s => s.2.length) body (fun s => read s.1 s.2) := by
  rintro ⟨run, _ | ⟨t, _ | ⟨n, rest⟩⟩⟩
  · exact .done _
  · exact .done _
  · dsimp only [body]
    rw [read]
    refine .ite (fun _ => .done _) fun _ => .ite (fun _ => .done _) fun _ => ?_
    exact .ite (fun _ => .done _) fun _ => .jump (length_lt_cons t (n :: rest))

namespace Parser

/-- One member of a class. -/
def membersBody (p : Parser) : Calls Parser (List Member × Parser) (List Member × Parser) :=
  if p.bodyEnds then .done ([], p)
  else if p.isPunct .semicolon then .jump p.bump
  else .again (pastItem p p.member?.2) fun rest => (p.member?.1.toList ++ rest.1, rest.2)

/-- The members of a class are read by recursion on the tokens left. -/
theorem recursion_membersFrom : Recursion left membersBody membersFrom := by
  intro p
  rw [membersBody, membersFrom]
  by_cases hends : p.bodyEnds = true
  · rw [if_pos hends, dif_pos hends]
    exact .done _
  have hend : p.atEnd = false := by
    simp only [bodyEnds, Bool.or_eq_true, not_or, Bool.not_eq_true] at hends
    exact hends.1.2
  rw [if_neg hends, dif_neg hends]
  refine .ite (fun _ => .jump (left_bump_lt hend)) (fun _ => ?_)
  exact .again (left_pastItem_lt (left_member?_le p) hend)

/-! ## Declarations -/

/-- One modifier of a declaration. -/
def modifiersBody (afterDefault : Bool) : DeclModifiers × Nat × List Token →
    Calls (DeclModifiers × Nat × List Token) (DeclModifiers × Nat) (DeclModifiers × Nat)
  | (m, count, t :: n :: rest) =>
    if n.newlineBefore then .done (m, count)
    else if !afterDefault && t.isWord "declare" && n.isDeclKeyword then
      .jump ({ m.startAt t with isDeclare := true }, count + 1, n :: rest)
    else if t.isWord "abstract" && n.isKeyword .classKw then
      .jump ({ m.startAt t with isAbstract := true }, count + 1, n :: rest)
    else if t.isWord "async" && n.isKeyword .functionKw then
      .jump ({ m.startAt t with isAsync := true }, count + 1, n :: rest)
    else .done (m, count)
  | (m, count, _) => .done (m, count)

/-- The modifiers of a declaration are read by recursion on the tokens left. -/
theorem recursion_readModifiers (afterDefault : Bool) :
    Recursion (fun s => s.2.2.length) (modifiersBody afterDefault)
      (fun s => DeclModifiers.read afterDefault s.1 s.2.1 s.2.2) := by
  rintro ⟨m, count, _ | ⟨t, _ | ⟨n, rest⟩⟩⟩
  · exact .done _
  · exact .done _
  · have hlt := length_lt_cons t (n :: rest)
    dsimp only [modifiersBody]
    rw [DeclModifiers.read]
    refine .ite (fun _ => .done _) fun _ => ?_
    -- each of the three words is taken by itself
    refine .ite (fun _ => .jump hlt) fun _ => .ite (fun _ => .jump hlt) fun _ => ?_
    exact .ite (fun _ => .jump hlt) fun _ => .done _

/-- One declarator. -/
def declaratorsBody (m : DeclModifiers) (word : VarKeyword) (p : Parser) :
    Calls Parser (List Decl × Parser) (List Decl × Parser) :=
  if p.halted then .done ([], p.finishItem)
  else match p.declaratorName? with
    | none =>
      .done ([], ((p.reportNoName "variable").recover [.semicolon]).skipPunct .semicolon)
    | some (name, isPattern, q) =>
      let head := { m.head with name := name.name, nameSpan := name.nameSpan }
      let d : Decl := .item { head with span := ⟨p.peek.span.lo, q.declaratorRest.endOffset⟩ }
        (.variableForm word isPattern)
      if q.declaratorRest.isPunct .comma then
        .again q.declaratorRest.bump fun rest => (d :: rest.1, rest.2)
      else .done ([d], q.declaratorRest.finishItem)

/-- Declared variables are read by recursion on the tokens left. -/
theorem recursion_declarators (m : DeclModifiers) (word : VarKeyword) :
    Recursion left (declaratorsBody m word) (declarators m word) := by
  intro p
  rw [declaratorsBody, declarators]
  refine .ite (fun _ => .done _) (fun _ => ?_)
  split
  · rename_i hname
    rw [hname]
    exact .done _
  · rename_i name isPattern q hname
    rw [hname]
    dsimp only
    by_cases hcomma : q.declaratorRest.isPunct .comma = true
    · rw [if_pos hcomma, dif_pos hcomma]
      have h₁ := left_bump_lt_of_isPunct hcomma
      have h₂ := left_declaratorRest_le q
      have h₃ := left_declaratorName?_le hname
      exact .again (by omega)
    · rw [if_neg hcomma, dif_neg hcomma]
      exact .done _

/-- One name behind the first name of a namespace. -/
def dottedBody : Token × List Token → Calls (Token × List Token) (Nat × Token) (Nat × Token)
  | (last, a :: b :: rest) =>
    if a.isPunct .dot && b.kind = .ident then .again (b, rest) fun r => (2 + r.1, r.2)
    else .done (0, last)
  | (last, _) => .done (0, last)

/-- A dotted name is read by recursion on the tokens left. -/
theorem recursion_dottedName :
    Recursion (fun s => s.2.length) dottedBody (fun s => dottedName s.1 s.2) := by
  rintro ⟨last, _ | ⟨a, _ | ⟨b, rest⟩⟩⟩
  · exact .done _
  · exact .done _
  · have hlt := Nat.lt_trans (length_lt_cons b rest) (length_lt_cons a (b :: rest))
    dsimp only [dottedBody]
    rw [dottedName]
    exact .ite (fun _ => .again hlt) (fun _ => .done _)

/-! ## Items -/

/-- One item. The items in a namespace are taken by a call of their own, and those behind it by
another one. -/
def itemsBody : Bool × Parser → Calls (Bool × Parser) (List Decl × Parser) (List Decl × Parser)
  | (inBody, p) =>
    if p.itemsEnd inBody then .done ([], p)
    else match p.item with
      | (.complete ds, q) => .again (inBody, pastItem p q) fun rest => (ds ++ rest.1, rest.2)
      | (.opened s body, q) => .call (true, q) fun inner =>
        let r := (inner.2.expect .closeBrace).2
        .again (inBody, r) fun rest => (s.finish (some body) inner.1 r :: rest.1, rest.2)

/-- Items are read by recursion on the tokens left. The items of a namespace are a call on fewer
tokens, and the items behind it are the next round. -/
theorem recursion_itemsFrom :
    Recursion (fun s => s.2.left) itemsBody (fun s => (itemsFrom s.1 s.2).1) := by
  rintro ⟨inBody, p⟩
  dsimp only [itemsBody]
  by_cases hends : p.itemsEnd inBody = true
  · rw [if_pos hends, itemsFrom_of_itemsEnd hends]
    exact .done _
  have hend := atEnd_of_itemsEnd hends
  rw [if_neg hends, itemsFrom_eq hends]
  rcases hi : p.item with ⟨ds | ⟨s, body⟩, q⟩
  · rw [itemDecls_of_complete hi, afterItem_of_complete hi]
    have hq : q.left ≤ p.left := by
      have := left_item_le p
      rwa [hi] at this
    exact .again (left_pastItem_lt hq hend)
  · -- the closing brace of the body is behind its items
    rw [itemDecls_of_opened hi, afterItem_of_opened hi]
    have hq : q.left < p.left := left_item_lt_of_opened hi
    have hinner := left_itemsFrom_le true q
    have hbrace := left_expect_le (itemsFrom true q).1.2 .closeBrace
    have hrest : ((itemsFrom true q).1.2.expect .closeBrace).2.left < p.left := by omega
    exact .call hq (.again hrest)

end Parser

/-! ## The front end -/

/-- Every loop and every recursive call of the parser ends. All of them count the tokens that are
left; the rules of types count their levels as well. -/
structure ParserTerminates : Prop where
  group : Terminates (fun s => s.2.length) groupBody fun s => groupEnd? s.1 s.2
  angle : ∀ start, Terminates (fun s => s.2.length) (Extent.angleBody start)
    fun s => Extent.angle start s.1 s.2
  path : Terminates List.length pathBody pathWidth
  decorators : Terminates List.length Extent.decoratorsBody Extent.decorators
  typeArgs : Terminates (fun s => s.2.2.length) typeArgsBody
    fun s => typeArgsEnd? s.1 s.2.1 s.2.2
  expression : Terminates (fun s => s.2.length) Extent.exprBody fun s => Extent.expr s.1 s.2
  statement : Terminates (fun s => s.2.length) Extent.statementBody
    fun s => Extent.statement s.1 s.2
  clause : Terminates (fun s => s.2.2.length) Extent.clauseBody
    fun s => Extent.clause s.1 s.2.1 s.2.2
  heritage : Terminates List.length Extent.heritageBody Extent.heritage
  recovery : ∀ stops, Terminates (fun s => s.2.length) (recoveryBody stops)
    fun s => recoveryWidth stops s.1 s.2
  operators : Terminates List.length operatorsBody typeOperatorsWidth
  arrays : Terminates List.length Extent.arrayBody Extent.arraySuffix
  types : Terminates Parser.TypeCall.size Parser.TypeCall.body Parser.TypeCall.taken
  levels : ∀ c d : Parser.TypeCall, c.size < d.size ↔
    c.left < d.left ∨ (c.left = d.left ∧ c.level < d.level)
  memberModifiers : Terminates (fun s => s.2.length) ModifierRun.body
    fun s => ModifierRun.read s.1 s.2
  members : Terminates Parser.left Parser.membersBody Parser.membersFrom
  modifiers : ∀ afterDefault, Terminates (fun s => s.2.2.length)
    (Parser.modifiersBody afterDefault) fun s => DeclModifiers.read afterDefault s.1 s.2.1 s.2.2
  declarators : ∀ m word, Terminates Parser.left (Parser.declaratorsBody m word)
    (Parser.declarators m word)
  dottedNames : Terminates (fun s => s.2.length) Parser.dottedBody
    fun s => Parser.dottedName s.1 s.2
  items : Terminates (fun s => s.2.left) Parser.itemsBody fun s => (Parser.itemsFrom s.1 s.2).1

/-- All the recursions of the parser end. -/
theorem parserTerminates : ParserTerminates where
  group := recursion_groupEnd?.terminates
  angle := fun start => (Extent.recursion_angle start).terminates
  path := recursion_pathWidth.terminates
  decorators := Extent.recursion_decorators.terminates
  typeArgs := recursion_typeArgsEnd?.terminates
  expression := Extent.recursion_expr.terminates
  statement := Extent.recursion_statement.terminates
  clause := Extent.recursion_clause.terminates
  heritage := Extent.recursion_heritage.terminates
  recovery := fun stops => (recursion_recoveryWidth stops).terminates
  operators := recursion_typeOperatorsWidth.terminates
  arrays := Extent.recursion_arraySuffix.terminates
  types := Parser.TypeCall.recursion_taken.terminates
  levels := Parser.TypeCall.size_lt_iff
  memberModifiers := ModifierRun.recursion_read.terminates
  members := Parser.recursion_membersFrom.terminates
  modifiers := fun afterDefault => (Parser.recursion_readModifiers afterDefault).terminates
  declarators := fun m word => (Parser.recursion_declarators m word).terminates
  dottedNames := Parser.recursion_dottedName.terminates
  items := Parser.recursion_itemsFrom.terminates

/-- The items of a module are taken up to the end of its tokens, if the parse is not given up. -/
theorem stops_moduleStart (source : Bytes) (tolerance : Option Nat) (before : List Diagnostic)
    (tokens : List Token) :
    ((moduleStart source tolerance before tokens).itemsFrom false).1.2.atEnd = true ∨
      ((moduleStart source tolerance before tokens).itemsFrom false).1.2.halted = true := by
  have hends : ((moduleStart source tolerance before tokens).itemsFrom false).1.2.itemsEnd false
      = true := Parser.itemsEnd_skipItems false _
  simpa [Parser.itemsEnd] using hends

/-- **The front end ends on every input.** Every loop and every recursion of the lexer and of the
parser makes its calls with fewer bytes or fewer tokens left, and no bound on their number is
needed; the tokens of a source come one behind the other, each with at least one byte; and whatever
the tokens are, how many errors are allowed and whether errors are reported at all, the parse of a
module stops at their end or has been given up. -/
theorem front_end_terminates :
    LexerTerminates ∧ ScansAdvance ∧ ParserTerminates ∧
      ∀ source tolerance before tokens,
        let r := ((moduleStart source tolerance before tokens).itemsFrom false).1
        parseModule source tolerance before tokens = ⟨r.1, r.2.found⟩ ∧
          (r.2.atEnd = true ∨ r.2.halted = true) := by
  refine ⟨lexerTerminates, scansAdvance, parserTerminates, ?_⟩
  intro source tolerance before tokens
  exact ⟨rfl, stops_moduleStart source tolerance before tokens⟩

end SignatureLedger
