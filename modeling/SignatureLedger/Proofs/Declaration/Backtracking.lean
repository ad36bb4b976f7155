import SignatureLedger.Proofs.Declaration.Bodies
import SignatureLedger.Proofs.Declaration.Reaches

/-!
# Attempts that are taken back

The grammar has two places at which it cannot tell from the next tokens what comes: before a
declaration, where modifiers may stand in front of no declaration at all, and at a less sign in an
expression, which opens type arguments only if the tokens behind it close them. `Parser.tryDecl` and
`Parser.tryTypeArgs` take the tokens one by one, decide then, and go back to where they started if
there was nothing to take. The lookahead of `Parser.declItem?` and of `typeArgsEnd?` decides the
same, and an attempt that fails leaves nothing behind (`attempts_atomic`).
-/

namespace SignatureLedger

/-! ## Going back -/

/-- Wherever the cursor has advanced to, it can go back. -/
theorem Cursor.seek_advance (c : Cursor) (n : Nat) : (c.advance n).seek c.pos = c := by
  have hall : (c.advance n).behind.reverse ++ (c.advance n).ahead
      = c.behind.reverse ++ c.ahead := by
    rw [Cursor.behind_advance, Cursor.ahead_advance, List.reverse_append, List.reverse_reverse,
      List.append_assoc, List.take_append_drop]
  have hpos : c.pos = c.behind.reverse.length := List.length_reverse.symm
  rw [Cursor.seek, hall, Cursor.stop_advance]
  generalize hstart : (⟨[], c.behind.reverse ++ c.ahead, c.stop⟩ : Cursor) = start
  have hbehind : (start.advance c.pos).behind = c.behind := by
    rw [Cursor.behind_advance, ← hstart, hpos, List.take_left, List.reverse_reverse]
    exact List.append_nil _
  have hahead : (start.advance c.pos).ahead = c.ahead := by
    rw [Cursor.ahead_advance, ← hstart, hpos, List.drop_left]
  have hstop : (start.advance c.pos).stop = c.stop := by rw [Cursor.stop_advance, ← hstart]
  cases hc : start.advance c.pos
  cases c
  simp_all

namespace Parser

variable {p q : Parser} {m : DeclModifiers}

/-- Goes back to an earlier place. What has been reported stays reported. -/
def rewind (p : Parser) (pos : Nat) : Parser := { p with cursor := p.cursor.seek pos }

/-- Going back to where one was undoes an advance. -/
theorem rewind_advance (p : Parser) (n : Nat) : (p.advance n).rewind p.cursor.pos = p := by
  show ({ p with cursor := (p.cursor.advance n).seek p.cursor.pos } : Parser) = p
  rw [Cursor.seek_advance]

/-- A parse with fewer tokens left stands at a later place. -/
theorem pos_lt_of_left_lt (h : Reaches p q) (hlt : q.left < p.left) :
    p.cursor.pos < q.cursor.pos := by
  obtain ⟨n, hn⟩ := exists_cursor_of_reaches h
  have hleft : q.left = p.left - n := by
    rw [left, hn]
    exact left_advance p n
  have hpos : q.cursor.pos = min n p.left + p.cursor.pos := by
    rw [hn]
    show (p.cursor.advance n).behind.length = _
    rw [Cursor.behind_advance, List.length_append, List.length_reverse, List.length_take]
    rfl
  omega

/-! ## Modifiers -/

/-- The modifiers with the one at the cursor, if one stands there on the line of the token behind
it. Where only a default export may stand the word `declare` is none. -/
def modifier? (onlyDefault : Bool) (m : DeclModifiers) (p : Parser) : Option DeclModifiers :=
  if p.peekNext.newlineBefore then none
  else if !onlyDefault && p.isWord "declare" && p.peekNext.isDeclKeyword then
    some { m.startAt p.peek with isDeclare := true }
  else if p.isWord "abstract" && p.peekNext.isKeyword .classKw then
    some { m.startAt p.peek with isAbstract := true }
  else if p.isWord "async" && p.peekNext.isKeyword .functionKw then
    some { m.startAt p.peek with isAsync := true }
  else none

/-- At a modifier the tokens are not at their end. -/
theorem atEnd_of_modifier? {onlyDefault : Bool} {m' : DeclModifiers}
    (h : p.modifier? onlyDefault m = some m') : p.atEnd = false := by
  unfold modifier? at h
  split at h
  · exact absurd h (by simp)
  split at h
  · rename_i hword
    simp only [Bool.and_eq_true] at hword
    exact atEnd_of_isWord hword.1.2
  split at h
  · rename_i hword
    simp only [Bool.and_eq_true] at hword
    exact atEnd_of_isWord hword.1
  split at h
  · rename_i hword
    simp only [Bool.and_eq_true] at hword
    exact atEnd_of_isWord hword.1
  · exact absurd h (by simp)

/-- Takes the modifiers, one token after the other. -/
def takeModifiers (onlyDefault : Bool) (m : DeclModifiers) (p : Parser) : DeclModifiers × Parser :=
  match _h : p.modifier? onlyDefault m with
  | some m' => takeModifiers onlyDefault m' p.bump
  | none => (m, p)
termination_by p.left
decreasing_by exact left_bump_lt (atEnd_of_modifier? _h)

/-- The lookahead over the modifiers looks at one of them after the other. Whether a word is one of
them depends on the token behind it too. -/
theorem read_eq (onlyDefault : Bool) (m : DeclModifiers) (count : Nat) (p : Parser) :
    DeclModifiers.read onlyDefault m count p.ahead =
      match p.modifier? onlyDefault m with
      | some m' => DeclModifiers.read onlyDefault m' (count + 1) p.bump.ahead
      | none => (m, count) := by
  match h : p.ahead with
  | [] =>
    have hend : p.atEnd = true := atEnd_iff.mpr h
    cases hm : p.modifier? onlyDefault m with
    | none => rfl
    | some m' => exact absurd hend (by simp [atEnd_of_modifier? hm])
  | [t] =>
    -- behind the last token stands the end marker, which no modifier has behind it
    have hnext : p.peekNext = Token.eofAt p.cursor.stop := by
      rw [peekNext, Cursor.peekAt, show p.cursor.ahead = [t] from h]
      rfl
    have hnone : p.modifier? onlyDefault m = none := by
      simp [modifier?, hnext, Token.eofAt]
    rw [hnone]
    rfl
  | t :: n :: rest =>
    rw [ahead_bump_of_cons h, DeclModifiers.read, modifier?, isWord_of_ahead h, isWord_of_ahead h,
      isWord_of_ahead h, peek_of_ahead h, peekNext_of_ahead h]
    split
    · rfl
    split
    · rfl
    split
    · rfl
    split <;> rfl

/-- The modifiers that are taken are those of the lookahead. -/
theorem exists_takeModifiers (onlyDefault : Bool) (m : DeclModifiers) (p : Parser) :
    ∃ n, (takeModifiers onlyDefault m p).2 = p.advance n ∧
      ∀ count, DeclModifiers.read onlyDefault m count p.ahead =
        ((takeModifiers onlyDefault m p).1, count + n) := by
  fun_induction takeModifiers onlyDefault m p with
  | case1 m p m' h ih =>
    obtain ⟨n, hn, hread⟩ := ih
    refine ⟨1 + n, ?_, fun count => ?_⟩
    · rw [hn, bump_eq_advance, advance_advance]
    · rw [read_eq, h]
      dsimp only
      rw [hread, Nat.add_assoc]
  | case2 m p h =>
    refine ⟨0, rfl, fun count => ?_⟩
    rw [read_eq, h]
    rfl

/-- Taking the modifiers is reading them off the tokens ahead, and advancing past those that were
read. -/
theorem takeModifiers_eq (onlyDefault : Bool) (m : DeclModifiers) (p : Parser) :
    takeModifiers onlyDefault m p =
      ((DeclModifiers.read onlyDefault m 0 p.ahead).1,
        p.advance (DeclModifiers.read onlyDefault m 0 p.ahead).2) := by
  obtain ⟨n, hn, hread⟩ := exists_takeModifiers onlyDefault m p
  rw [hread, Nat.zero_add, ← hn]

/-- Reading modifiers keeps the mode of the export. -/
theorem exported_read (onlyDefault : Bool) (m : DeclModifiers) (count : Nat) (ts : List Token) :
    (DeclModifiers.read onlyDefault m count ts).1.exported = m.exported := by
  fun_induction DeclModifiers.read onlyDefault m count ts with
  | case1 | case5 | case6 => rfl
  | case2 _ _ _ _ _ _ _ ih => exact ih
  | case3 _ _ _ _ _ _ _ _ ih => exact ih
  | case4 _ _ _ _ _ _ _ _ _ ih => exact ih

/-! ## The attempt to take a declaration -/

/-- What an attempt to take a declaration leaves behind. -/
structure Attempt where
  taken : Bool
  parser : Parser
  mods : DeclModifiers
  decls : List Decl

/-- Tries to take a declaration and to add it to those before it. If none stands behind the
modifiers, the cursor goes back to where it was, and so do the modifiers. -/
def tryDecl (p : Parser) (onlyDefault : Bool) (m : DeclModifiers) (decls : List Decl) : Attempt :=
  let r := takeModifiers onlyDefault m p
  match r.2.declRest? onlyDefault r.1 with
  | some item => ⟨true, (closeItem item).2, r.1, decls ++ (closeItem item).1⟩
  | none => ⟨false, r.2.rewind p.cursor.pos, m, decls⟩

/-- An attempt that fails leaves everything as it was. -/
theorem tryDecl_of_not_taken (onlyDefault : Bool) (m : DeclModifiers) (decls : List Decl)
    (h : (p.tryDecl onlyDefault m decls).taken = false) :
    p.tryDecl onlyDefault m decls = ⟨false, p, m, decls⟩ := by
  obtain ⟨n, hn, -⟩ := exists_takeModifiers onlyDefault m p
  unfold tryDecl at h ⊢
  dsimp only at h ⊢
  cases hr : (takeModifiers onlyDefault m p).2.declRest? onlyDefault
      (takeModifiers onlyDefault m p).1 with
  | some item =>
    rw [hr] at h
    exact absurd h (by simp)
  | none =>
    dsimp only
    rw [hn, rewind_advance]

/-! ### What is taken -/

/-- What advances stands further on. -/
theorem Advances.pos_lt (h : Advances p q) : p.cursor.pos < q.cursor.pos :=
  pos_lt_of_left_lt ((reaches_bump p).trans h.reaches) h.left_lt

/-- An attempt that succeeds has taken a token, and has kept the declarations before it. -/
theorem tryDecl_of_taken (onlyDefault : Bool) (m : DeclModifiers) (decls : List Decl)
    (h : (p.tryDecl onlyDefault m decls).taken = true) :
    p.cursor.pos < (p.tryDecl onlyDefault m decls).parser.cursor.pos ∧
      decls <+: (p.tryDecl onlyDefault m decls).decls := by
  obtain ⟨n, hn, -⟩ := exists_takeModifiers onlyDefault m p
  unfold tryDecl at h ⊢
  dsimp only at h ⊢
  cases hr : (takeModifiers onlyDefault m p).2.declRest? onlyDefault
      (takeModifiers onlyDefault m p).1 with
  | none =>
    rw [hr] at h
    exact absurd h (by simp)
  | some item =>
    dsimp only
    refine ⟨?_, List.prefix_append _ _⟩
    have hitem := (eachDecl_advances _ _).declRest? onlyDefault item hr
    rw [hn] at hitem
    have hreach := hitem.reaches.trans (reaches_closeItem item)
    have hstart : Reaches p (p.advance n) := reaches_advance p n
    have hlt := (Advances.mk hitem.notAtEnd hreach).left_lt
    exact pos_lt_of_left_lt ((hstart.trans (reaches_bump _)).trans hreach)
      (Nat.lt_of_lt_of_le hlt (left_le_of_reaches hstart))

/-- The attempt takes what the lookahead finds. Where nothing is found the cursor is set back to
where it was. -/
theorem tryDecl_eq (exported : ExportMode) (decls : List Decl) (p : Parser) :
    p.tryDecl (exported = .asDefault) { exported } decls =
      match p.declItem? exported with
      | some r =>
        ⟨true, (closeItem r).2,
          (DeclModifiers.read (exported = .asDefault) { exported } 0 p.ahead).1,
          decls ++ (closeItem r).1⟩
      | none => ⟨false, p, { exported }, decls⟩ := by
  have hfind : (takeModifiers (exported = .asDefault) { exported } p).2.declRest?
        (exported = .asDefault) (takeModifiers (exported = .asDefault) { exported } p).1 =
      p.declItem? exported := by
    rw [takeModifiers_eq, declItem?]
  cases hr : p.declItem? exported with
  | none =>
    dsimp only
    apply tryDecl_of_not_taken
    unfold tryDecl
    dsimp only
    rw [hfind, hr]
  | some r =>
    unfold tryDecl
    dsimp only
    rw [hfind, hr, takeModifiers_eq]

/-! ## The attempt to take type arguments -/

/-- Where a search for the end of type arguments has stopped. -/
structure ArgSearch where
  /-- A token has come that occurs in no type arguments. -/
  foreign : Bool
  /-- How many lists were open there. -/
  depth : Int
  parser : Parser

/-- The search has come to the end of the type arguments, and something that can follow them comes
next. -/
def ArgSearch.succeeds (s : ArgSearch) : Bool :=
  !s.foreign && s.depth == 0 && (s.parser.atEnd || s.parser.peek.followsTypeArgs)

/-- Takes at most so many tokens, up to the greater sign that closes the outermost list. -/
def searchArgs (p : Parser) (depth : Int) : Nat → ArgSearch
  | 0 => ⟨false, depth, p⟩
  | steps + 1 =>
    if p.atEnd then ⟨false, depth, p⟩
    else if p.isPunct .less then p.bump.searchArgs (depth + 1) steps
    else if p.isPunct .greater then
      if depth - 1 = 0 then ⟨false, 0, p.bump⟩ else p.bump.searchArgs (depth - 1) steps
    else if p.peek.kind.inTypeArgs then p.bump.searchArgs depth steps
    else ⟨true, depth, p⟩

/-- Tries to take type arguments of an expression. If the less sign opens none, the cursor goes back
to it. -/
def tryTypeArgs (p : Parser) : Bool × Parser :=
  if p.isPunct .less then
    let s := p.searchArgs 0 typeArgsLimit
    if s.succeeds then (true, s.parser) else (false, s.parser.rewind p.cursor.pos)
  else (false, p)

/-- A search that stops in an open list has failed. -/
theorem succeeds_of_pos {depth : Nat} (hdepth : 0 < depth) (p : Parser) :
    ArgSearch.succeeds ⟨false, depth, p⟩ = false := by
  simp [ArgSearch.succeeds, Nat.ne_of_gt hdepth]

/-- A search that has closed the outermost list succeeds if what comes next can follow it. -/
theorem succeeds_closed (p : Parser) :
    ArgSearch.succeeds ⟨false, 0, p⟩ = p.ahead.head?.all Token.followsTypeArgs := by
  cases hp : p.ahead with
  | nil => simp [ArgSearch.succeeds, atEnd_iff.mpr hp]
  | cons n us => simp [ArgSearch.succeeds, atEnd_of_ahead hp, peek_of_ahead hp]

/-- The search only advances, and it succeeds where the lookahead does. By induction on the steps,
with the same tests in the same order on both sides. -/
theorem exists_searchArgs (steps depth : Nat) (hdepth : 0 < depth) (p : Parser) :
    ∃ n, (p.searchArgs depth steps).parser = p.advance n ∧
      typeArgsEnd? steps depth p.ahead =
        if (p.searchArgs depth steps).succeeds then some n else none := by
  induction steps generalizing p depth with
  | zero =>
    refine ⟨0, rfl, ?_⟩
    rw [searchArgs, succeeds_of_pos hdepth, typeArgsEnd?]
    rfl
  | succ steps ih =>
    cases hp : p.ahead with
    | nil =>
      rw [searchArgs, if_pos (atEnd_iff.mpr hp), succeeds_of_pos hdepth]
      exact ⟨0, rfl, rfl⟩
    | cons t rest =>
      have hbump : p.bump.ahead = rest := ahead_bump_of_cons hp
      -- the token is taken, and the search goes on behind it
      have hstep : ∀ d : Nat, 0 < d →
          ∃ n, (p.bump.searchArgs d steps).parser = p.advance n ∧
            (typeArgsEnd? steps d rest).map (· + 1) =
              if (p.bump.searchArgs d steps).succeeds then some n else none := by
        intro d hd
        obtain ⟨n, hn, hargs⟩ := ih d hd p.bump
        refine ⟨1 + n, ?_, ?_⟩
        · rw [hn, bump_eq_advance, advance_advance]
        · rw [← hbump, hargs, Nat.add_comm]
          split <;> rfl
      rw [searchArgs, if_neg (by simp [atEnd_of_ahead hp]), isPunct_of_ahead hp,
        isPunct_of_ahead hp, peek_of_ahead hp, typeArgsEnd?]
      by_cases hless : t.isPunct .less = true
      · rw [if_pos hless, if_pos hless]
        exact hstep (depth + 1) (Nat.succ_pos depth)
      rw [if_neg hless, if_neg hless]
      by_cases hgreater : t.isPunct .greater = true
      · rw [if_pos hgreater, if_pos hgreater]
        by_cases hone : depth ≤ 1
        · -- the greater sign closes the outermost list
          rw [if_pos hone, if_pos (by omega), succeeds_closed, hbump]
          exact ⟨1, rfl, rfl⟩
        · rw [if_neg hone, if_neg (by omega), show (depth : Int) - 1 = (depth - 1 : Nat) by omega]
          exact hstep (depth - 1) (by omega)
      rw [if_neg hgreater, if_neg hgreater]
      by_cases hargs : t.kind.inTypeArgs = true
      · rw [if_pos hargs, if_pos hargs]
        exact hstep depth hdepth
      · rw [if_neg hargs, if_neg hargs]
        exact ⟨0, rfl, rfl⟩

end Parser

/-- The type arguments at the front of tokens of an expression: how many tokens they are. -/
def typeArgs? : List Token → Option Nat
  | [] => none
  | t :: rest =>
    if t.isPunct .less then (typeArgsEnd? (typeArgsLimit - 1) 1 rest).map (1 + ·) else none

namespace Parser

/-- The attempt takes what the lookahead finds. It is `exists_searchArgs` behind the less sign, and
where the search fails the cursor is set back. -/
theorem tryTypeArgs_eq (p : Parser) :
    p.tryTypeArgs = match typeArgs? p.ahead with
      | some n => (true, p.advance n)
      | none => (false, p) := by
  cases hp : p.ahead with
  | nil =>
    have hno : p.isPunct .less = false := by
      cases hless : p.isPunct .less with
      | false => rfl
      | true =>
        obtain ⟨t, rest, ht⟩ := exists_of_not_atEnd (atEnd_of_isPunct hless)
        exact absurd (hp.symm.trans ht) (by simp)
    simp [tryTypeArgs, hno, typeArgs?]
  | cons t rest =>
    rw [tryTypeArgs, typeArgs?, isPunct_of_ahead hp]
    by_cases hless : t.isPunct .less = true
    · rw [if_pos hless, if_pos hless]
      -- the first step takes the less sign
      have hfirst : p.searchArgs 0 typeArgsLimit
          = p.bump.searchArgs (1 : Nat) (typeArgsLimit - 1) := by
        rw [typeArgsLimit, searchArgs, if_neg (by simp [atEnd_of_ahead hp]),
          if_pos (isPunct_of_ahead hp _ ▸ hless)]
        rfl
      obtain ⟨n, hn, hargs⟩ := exists_searchArgs (typeArgsLimit - 1) 1 Nat.one_pos p.bump
      rw [bump_eq_advance, advance_advance, ← bump_eq_advance] at hn
      rw [ahead_bump_of_cons hp] at hargs
      dsimp only
      rw [hfirst, hargs, hn]
      split
      · rfl
      · rw [rewind_advance]
        rfl
    · rw [if_neg hless, if_neg hless]

end Parser

/-! ### What type arguments are -/

/-- What a token adds to the number of lists of type arguments that are open. -/
def Token.angleStep (t : Token) : Int :=
  if t.isPunct .less then 1 else if t.isPunct .greater then -1 else 0

/-- How many more lists are open behind the tokens than before them. -/
def angleDepth : List Token → Int
  | [] => 0
  | t :: ts => t.angleStep + angleDepth ts

/-- With `depth` lists open before them, the tokens end with the greater sign that closes the
outermost one, and not before. -/
structure ClosesAngle (depth : Int) (ts : List Token) : Prop where
  last : ∃ inner t, ts = inner ++ [t] ∧ t.isPunct .greater = true
  closed : depth + angleDepth ts = 0
  isOpen : ∀ front, front <+: ts → front ≠ ts → 0 < depth + angleDepth front

/-- A closing angle alone closes one. -/
theorem ClosesAngle.single {t : Token} (ht : t.isPunct .greater = true) : ClosesAngle 1 [t] where
  last := ⟨[], t, rfl, ht⟩
  closed := by
    have hless : t.isPunct .less = false := by
      cases hless : t.isPunct .less with
      | false => rfl
      | true =>
        simp only [Token.isPunct, beq_iff_eq] at ht hless
        exact absurd (ht.symm.trans hless) (by decide)
    simp [angleDepth, Token.angleStep, ht, hless]
  isOpen := by
    intro front hfront hne
    rcases List.prefix_cons_iff.mp hfront with rfl | ⟨us, rfl, hus⟩
    · simp [angleDepth]
    · exact absurd (by rw [List.prefix_nil.mp hus]) hne

/-- A token in front of a closed stretch changes the depth that is closed. -/
theorem ClosesAngle.cons {depth : Int} {t : Token} {ts : List Token} (hdepth : 0 < depth)
    (h : ClosesAngle (depth + t.angleStep) ts) : ClosesAngle depth (t :: ts) where
  last := by
    obtain ⟨inner, g, rfl, hg⟩ := h.last
    exact ⟨t :: inner, g, rfl, hg⟩
  closed := by
    rw [angleDepth, ← Int.add_assoc]
    exact h.closed
  isOpen := by
    intro front hfront hne
    rcases List.prefix_cons_iff.mp hfront with rfl | ⟨us, rfl, hus⟩
    · simpa [angleDepth] using hdepth
    · rw [angleDepth, ← Int.add_assoc]
      exact h.isOpen us hus fun heq => hne (by rw [heq])

/-- The lookahead ends at the greater sign that closes the outermost list. By induction on the
steps: each token changes the depth by its step, and the depth stays above zero up to that sign. -/
theorem exists_closesAngle {steps depth n : Nat} {ts : List Token} (hdepth : 0 < depth)
    (h : typeArgsEnd? steps depth ts = some n) :
    ∃ args rest, ts = args ++ rest ∧ args.length = n ∧ ClosesAngle depth args := by
  induction steps generalizing depth n ts with
  | zero => simp [typeArgsEnd?] at h
  | succ steps ih =>
    cases ts with
    | nil => simp [typeArgsEnd?] at h
    | cons t ts =>
      have hstep : ∀ d : Nat, 0 < d → (depth : Int) + t.angleStep = d →
          (typeArgsEnd? steps d ts).map (· + 1) = some n →
          ∃ args rest, t :: ts = args ++ rest ∧ args.length = n ∧ ClosesAngle depth args := by
        intro d hd hstep hsome
        obtain ⟨m, hm, rfl⟩ := Option.map_eq_some_iff.mp hsome
        obtain ⟨args, rest, rfl, rfl, hargs⟩ := ih hd hm
        refine ⟨t :: args, rest, rfl, rfl, ?_⟩
        exact .cons (by omega) (hstep ▸ hargs)
      rw [typeArgsEnd?] at h
      split at h
      · rename_i hless
        exact hstep (depth + 1) (Nat.succ_pos depth) (by simp [Token.angleStep, hless]) h
      rename_i hless
      split at h
      · rename_i hgreater
        split at h
        · split at h
          · -- the greater sign is the last one
            obtain rfl := Option.some.inj h
            have hone : depth = 1 := by omega
            subst hone
            exact ⟨[t], ts, rfl, rfl, .single hgreater⟩
          · exact absurd h (by simp)
        · refine hstep (depth - 1) (by omega) ?_ h
          simp only [Token.angleStep, hless, hgreater]
          simp
          omega
      · rename_i hgreater
        split at h
        · exact hstep depth hdepth (by simp [Token.angleStep, hless, hgreater]) h
        · exact absurd h (by simp)

/-- Type arguments start with a less sign and end with the greater sign that closes it. -/
theorem exists_of_typeArgs? {n : Nat} {ts : List Token} (h : typeArgs? ts = some n) :
    ∃ t args rest, ts = t :: (args ++ rest) ∧ n = 1 + args.length ∧
      t.isPunct .less = true ∧ ClosesAngle 1 args := by
  cases ts with
  | nil => exact absurd h (by simp [typeArgs?])
  | cons t ts =>
    rw [typeArgs?] at h
    split at h
    · rename_i hless
      obtain ⟨m, hm, rfl⟩ := Option.map_eq_some_iff.mp h
      obtain ⟨args, rest, rfl, rfl, hargs⟩ := exists_closesAngle Nat.one_pos hm
      exact ⟨t, args, rest, rfl, rfl, hless, hargs⟩
    · exact absurd h (by simp)

namespace Parser

/-! ## Both attempts -/

/-- What an attempt to take a declaration may do: fail and leave the state of the parse, the
modifiers and the declarations as they were, or succeed at a later place. -/
structure Attempt.Atomic (a : Attempt) (p : Parser) (m : DeclModifiers) (decls : List Decl) :
    Prop where
  untouched : a.taken = false → a.parser = p ∧ a.mods = m ∧ a.decls = decls
  advanced : a.taken = true → p.cursor.pos < a.parser.cursor.pos ∧ decls <+: a.decls

/-- What an attempt to take type arguments may do. -/
structure AtomicArgs (p : Parser) (r : Bool × Parser) : Prop where
  untouched : r.1 = false → r.2 = p
  advanced : r.1 = true → p.cursor.pos < r.2.cursor.pos ∧
    ∃ t args rest, p.ahead = t :: (args ++ rest) ∧ t.isPunct .less = true ∧
      ClosesAngle 1 args ∧ r.2 = p.advance (1 + args.length)

/-- The attempt at a declaration is atomic. -/
theorem atomic_tryDecl (p : Parser) (onlyDefault : Bool) (m : DeclModifiers) (decls : List Decl) :
    (p.tryDecl onlyDefault m decls).Atomic p m decls where
  untouched := by
    intro h
    rw [tryDecl_of_not_taken onlyDefault m decls h]
    exact ⟨rfl, rfl, rfl⟩
  advanced := tryDecl_of_taken onlyDefault m decls

/-- So is the attempt at type arguments. -/
theorem atomicArgs_tryTypeArgs (p : Parser) : AtomicArgs p p.tryTypeArgs := by
  rw [tryTypeArgs_eq]
  cases hn : typeArgs? p.ahead with
  | none => exact ⟨fun _ => rfl, fun h => absurd h (by simp)⟩
  | some n =>
    obtain ⟨t, args, rest, hp, rfl, hless, hargs⟩ := exists_of_typeArgs? hn
    refine ⟨fun h => absurd h (by simp), fun _ => ⟨?_, t, args, rest, hp, hless, hargs, rfl⟩⟩
    have hend : p.atEnd = false := atEnd_of_ahead hp
    have hreach : Reaches p.bump (p.advance (1 + args.length)) := by
      rw [← advance_advance, ← bump_eq_advance]
      exact reaches_advance _ _
    exact Advances.pos_lt ⟨hend, hreach⟩

/-- **Attempts leave no trace.** Wherever the parse stands and whatever modifiers and declarations
there are, an attempt to take a declaration fails with all of it unchanged or succeeds at a later
place, and so does an attempt to take type arguments, which are then a less sign and the tokens up
to the greater sign that closes it. Both are what the lookahead of the grammar decides. -/
theorem attempts_atomic (p : Parser) :
    ((∀ onlyDefault m decls, (p.tryDecl onlyDefault m decls).Atomic p m decls) ∧
      ∀ exported decls, p.tryDecl (exported = .asDefault) { exported } decls =
        match p.declItem? exported with
        | some r =>
          ⟨true, (closeItem r).2,
            (DeclModifiers.read (exported = .asDefault) { exported } 0 p.ahead).1,
            decls ++ (closeItem r).1⟩
        | none => ⟨false, p, { exported }, decls⟩) ∧
    (AtomicArgs p p.tryTypeArgs ∧
      p.tryTypeArgs = match typeArgs? p.ahead with
        | some n => (true, p.advance n)
        | none => (false, p)) := by
  constructor
  · exact ⟨atomic_tryDecl p, fun exported decls => tryDecl_eq exported decls p⟩
  · exact ⟨atomicArgs_tryTypeArgs p, tryTypeArgs_eq p⟩

end Parser

end SignatureLedger
