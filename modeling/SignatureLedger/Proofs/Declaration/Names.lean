import SignatureLedger.Proofs.Declaration.Kinds

/-!
# Names of declarations

Every declaration but a namespace is named by an identifier of the source, or it has no name, and
then it is a default export or a pattern (`named_parseModule`). What holds of the lexemes of all
identifiers therefore holds of the names.
-/

namespace SignatureLedger

/-- The declaration, and every declaration in it, has a name with the property `P` unless it is a
namespace, an anonymous default export or a pattern. -/
inductive Decl.Named (P : Bytes → Prop) : Decl → Prop
  | word {h : DeclHead} {form : DeclForm} (hname : P h.name) : Named P (.item h form)
  | anonymous {h : DeclHead} {form : DeclForm} (hname : h.name = [])
      (hdefault : h.exported = .asDefault) : Named P (.item h form)
  | pattern {h : DeclHead} {word : VarKeyword} : Named P (.item h (.variableForm word true))
  | space {h : DeclHead} {isGlobal : Bool} {children : List Decl}
      (hchildren : ∀ d ∈ children, Named P d) : Named P (.space h isGlobal children)

namespace Parser

variable {P : Bytes → Prop} {p q : Parser}

/-! ## Identifiers that are left -/

/-- The lexemes of the identifiers that are left have the property `P`. -/
def WordsAre (P : Bytes → Prop) (p : Parser) : Prop := ∀ t ∈ p.ahead, t.kind = .ident → P t.lexeme

/-- The words further on are words from here. -/
theorem WordsAre.of_reaches (h : WordsAre P p) (hr : Reaches p q) : WordsAre P q :=
  fun t ht => h t ((suffix_of_reaches hr).subset ht)

/-- The next token is one of those that are left, unless it is the end marker. -/
theorem WordsAre.peek (h : WordsAre P p) (hk : p.peek.kind = .ident) : P p.peek.lexeme := by
  cases hp : p.ahead with
  | nil =>
    rw [Parser.peek, Cursor.peek, show p.cursor.ahead = [] from hp] at hk
    exact absurd hk (by simp [Token.eofAt])
  | cons t ts =>
    rw [peek_of_ahead hp] at hk ⊢
    exact h t (hp ▸ List.mem_cons_self) hk

/-! ## Declarations -/

section Declarations

variable {m : DeclModifiers}

/-- A function is named by one of the words. That is the one behind `function` and the star of a
generator; without it the function is anonymous. -/
theorem named_functionDecl (h : WordsAre P p) :
    ∀ d ∈ (p.functionDecl m).1, d.Named P := by
  have hname : WordsAre P (p.bump.skipPunct .star) :=
    h.of_reaches ((reaches_bump p).trans (reaches_skipPunct _ _))
  intro d hd
  unfold functionDecl at hd
  dsimp only at hd
  split at hd
  · exact absurd hd List.not_mem_nil
  · rename_i hnamed
    obtain rfl := List.mem_singleton.mp hd
    by_cases hk : (p.bump.skipPunct .star).peek.kind = .ident
    · refine .word ?_
      rw [if_pos hk]
      exact hname.peek hk
    · -- without a name only a default export is declared
      have hdefault : m.exported = .asDefault :=
        Decidable.byContradiction fun hne => hnamed ⟨hk, hne⟩
      refine .anonymous ?_ ?_
      · rw [if_neg hk]
        rfl
      · rw [if_neg hk]
        exact hdefault

/-- A class is named by one of the words. -/
theorem named_classDecl (h : WordsAre P p) : ∀ d ∈ (p.classDecl m).1, d.Named P := by
  have hname : WordsAre P p.bump := h.of_reaches (reaches_bump p)
  intro d hd
  unfold classDecl at hd
  dsimp only at hd
  cases hk : (decide (p.bump.peek.kind = .ident) && !p.bump.isWord "implements") with
  | true =>
    simp only [hk, Bool.not_true, Bool.false_and, Bool.false_eq_true, if_false, if_true] at hd
    obtain rfl := List.mem_singleton.mp hd
    rw [Bool.and_eq_true, decide_eq_true_eq] at hk
    exact .word (hname.peek hk.1)
  | false =>
    simp only [hk, Bool.not_false, Bool.true_and, Bool.false_eq_true, if_false] at hd
    split at hd
    · exact absurd hd List.not_mem_nil
    · rename_i hdefault
      obtain rfl := List.mem_singleton.mp hd
      have hdefault : m.exported = .asDefault := by simpa using hdefault
      exact .anonymous rfl hdefault

/-- An interface is named by one of the words. -/
theorem named_interfaceDecl (h : WordsAre P p) (hk : p.peekNext.kind = .ident) :
    ∀ d ∈ (p.interfaceDecl m).1, d.Named P := by
  have hname : WordsAre P p.bump := h.of_reaches (reaches_bump p)
  intro d hd
  obtain rfl := List.mem_singleton.mp hd
  exact .word (hname.peek (peek_bump p ▸ hk))

/-- An alias is named by one of the words. -/
theorem named_typeAliasDecl (h : WordsAre P p) (hk : p.peekNext.kind = .ident) :
    ∀ d ∈ (p.typeAliasDecl m).1, d.Named P := by
  have hname : WordsAre P p.bump := h.of_reaches (reaches_bump p)
  intro d hd
  obtain rfl := List.mem_singleton.mp hd
  exact .word (hname.peek (peek_bump p ▸ hk))

/-- An enumeration is named by one of the words. -/
theorem named_enumDecl (h : WordsAre P p) : ∀ d ∈ (p.enumDecl m).1, d.Named P := by
  have hname : WordsAre P p.bump := h.of_reaches (reaches_bump p)
  intro d hd
  unfold enumDecl at hd
  dsimp only at hd
  split at hd
  · rename_i hk
    obtain rfl := List.mem_singleton.mp hd
    exact .word (hname.peek hk)
  · exact absurd hd List.not_mem_nil

/-- The name of a variable is the identifier ahead, or stands for a pattern. -/
theorem declaratorName?_cases {name : DeclHead} {isPattern : Bool}
    (h : p.declaratorName? = some (name, isPattern, q)) :
    (p.peek.kind = .ident ∧ name.name = p.peek.lexeme ∧ q = p.bump) ∨
      (isPattern = true ∧ q = p.takeGroup) := by
  unfold declaratorName? at h
  split at h
  · rename_i hk
    simp only [Option.some.injEq, Prod.mk.injEq] at h
    exact .inl ⟨hk, by rw [← h.1], h.2.2.symm⟩
  · split at h
    · simp only [Option.some.injEq, Prod.mk.injEq] at h
      exact .inr ⟨h.2.1.symm, h.2.2.symm⟩
    · exact absurd h (by simp)

/-- One declarator is named by its identifier, or it is a pattern. -/
theorem named_declarator {name head : DeclHead} {isPattern : Bool} {word : VarKeyword}
    (h : WordsAre P p) (hq : p.declaratorName? = some (name, isPattern, q))
    (hhead : head.name = name.name) : (Decl.item head (.variableForm word isPattern)).Named P := by
  rcases declaratorName?_cases hq with ⟨hk, hname, -⟩ | ⟨rfl, -⟩
  · exact .word (by rw [hhead, hname]; exact h.peek hk)
  · exact .pattern

/-- Every declared variable is named by one of the words. -/
theorem named_declarators (word : VarKeyword) (h : WordsAre P p) :
    ∀ d ∈ (declarators m word p).1, d.Named P := by
  fun_induction declarators m word p with
  | case1 p _ => exact fun d hd => absurd hd List.not_mem_nil
  | case2 p _ _ => exact fun d hd => absurd hd List.not_mem_nil
  | case3 p _ name isPattern q hq lo head d hc rest ih =>
    -- the other declarators come behind this one and a comma
    have hreach : Reaches p q.declaratorRest.bump := by
      have hrest := (reaches_declaratorRest q).trans (reaches_bump q.declaratorRest)
      rcases declaratorName?_cases hq with ⟨-, -, rfl⟩ | ⟨-, rfl⟩
      · exact (reaches_bump p).trans hrest
      · exact (reaches_takeGroup p).trans hrest
    intro e he
    rcases List.mem_cons.mp he with rfl | he
    · exact named_declarator h hq rfl
    · exact ih (h.of_reaches hreach) e he
  | case4 p _ name isPattern q hq lo head d hc =>
    intro e he
    obtain rfl := List.mem_singleton.mp he
    exact named_declarator h hq rfl

/-- So are those of one declaration. -/
theorem named_variableDecl (h : WordsAre P p) : ∀ d ∈ (p.variableDecl m).1, d.Named P :=
  named_declarators _ (h.of_reaches (reaches_bump p))

end Declarations

/-- Each kind of declaration is named. -/
theorem eachKind_named (P : Bytes → Prop) :
    EachKind (WordsAre P) (fun _ => WordsAre P) (Decl.Named P) where
  reach := WordsAre.of_reaches
  modified := fun _ h => h.of_reaches (reaches_advance _ _)
  constant := fun h => h.of_reaches (reaches_bump _)
  functionDecl := named_functionDecl
  classDecl := named_classDecl
  interfaceDecl := named_interfaceDecl
  typeAliasDecl := named_typeAliasDecl
  enumDecl := named_enumDecl
  variableDecl := named_variableDecl
  space := .space

end Parser

/-- **Names are identifiers.** What holds of the lexemes of all identifiers of a source holds of the
names of its declarations. -/
theorem named_parseModule {P : Bytes → Prop} {tokens : List Token}
    (h : ∀ t ∈ tokens, t.kind = .ident → P t.lexeme) (source : Bytes) (tolerance : Option Nat)
    (before : List Diagnostic) :
    ∀ d ∈ (parseModule source tolerance before tokens).decls, d.Named P := by
  refine (Parser.eachKind_named P).itemsFrom false _ fun t ht => h t ?_
  exact (List.takeWhile_prefix _).subset ht

end SignatureLedger
