import SignatureLedger.Proofs.Declaration.Names

/-!
# Bodies of functions and methods

A declaration notes where the bodies of functions and of methods start. Every offset that it notes
is the one of a token which the parse has taken on the way (`taken_itemsFrom`).
-/

namespace SignatureLedger

/-! ## Bodies -/

/-- The offsets at which the bodies of members start. -/
def memberBodies (members : List Member) : List Nat := members.filterMap (·.body?)

/-- The offsets at which the bodies of a function or of the methods of a class start. -/
def DeclForm.bodies (h : DeclHead) : DeclForm → List Nat
  | .function _ _ => h.body?.toList
  | .classForm _ members => memberBodies members
  | _ => []

mutual

/-- The same of all functions and classes in a declaration. -/
def Decl.bodies : Decl → List Nat
  | .item h form => form.bodies h
  | .space _ _ children => Decl.bodiesOfAll children

/-- The bodies of a list of declarations. -/
def Decl.bodiesOfAll : List Decl → List Nat
  | [] => []
  | d :: ds => d.bodies ++ Decl.bodiesOfAll ds

end

/-- The bodies of two lists of declarations put together. -/
theorem Decl.bodiesOfAll_append (ds es : List Decl) :
    bodiesOfAll (ds ++ es) = bodiesOfAll ds ++ bodiesOfAll es := by
  induction ds with
  | nil => rfl
  | cons d ds ih => rw [List.cons_append, bodiesOfAll, bodiesOfAll, ih, List.append_assoc]

namespace Parser

variable {p q r s : Parser} {o : Nat} {m : DeclModifiers}

/-! ## Tokens that are taken -/

/-- A token at this offset is taken between the two states. -/
def Taken (p q : Parser) (o : Nat) : Prop :=
  ∃ t ts, t :: ts <:+ p.ahead ∧ t.span.lo = o ∧ q.left ≤ ts.length

/-- A body taken on part of the way is taken on the whole way. -/
theorem Taken.of_reaches (h : Taken q r o) (hpq : Reaches p q) (hrs : Reaches r s) :
    Taken p s o := by
  obtain ⟨t, ts, hsuffix, hlo, hle⟩ := h
  exact ⟨t, ts, hsuffix.trans (suffix_of_reaches hpq), hlo,
    Nat.le_trans (suffix_of_reaches hrs).length_le hle⟩

/-- A group that opens is taken with its opening token at least. -/
theorem left_takeGroup_lt {t : Token} {ts : List Token} (hp : p.ahead = t :: ts)
    (ht : t.kind.isOpener = true) : p.takeGroup.left ≤ ts.length := by
  have hleft : p.left = ts.length + 1 := congrArg List.length hp
  unfold takeGroup
  rw [hp]
  dsimp only
  rw [if_pos ht, left_take, hleft, Extent.shift]
  dsimp only
  omega

/-- A body is taken with its opening brace at least. -/
theorem left_takeGroup_lt_of_openBrace (h : p.isPunct .openBrace = true) :
    p.takeGroup.left < p.left := by
  obtain ⟨t, ts, hp⟩ := exists_of_not_atEnd (atEnd_of_isPunct h)
  have hleft : p.left = ts.length + 1 := congrArg List.length hp
  rw [isPunct_of_ahead hp] at h
  simp only [Token.isPunct, beq_iff_eq] at h
  have := left_takeGroup_lt hp (by rw [h]; rfl)
  omega

/-- The body that is recorded is taken. -/
theorem taken_body? (h : p.body?.1 = some o) : Taken p p.body?.2 o := by
  unfold body? at h ⊢
  by_cases hb : p.isPunct .openBrace = true
  · obtain ⟨t, ts, hp⟩ := exists_of_not_atEnd (atEnd_of_isPunct hb)
    rw [if_pos hb, Option.some_inj, peek_of_ahead hp] at h
    rw [isPunct_of_ahead hp] at hb
    rw [if_pos (by rwa [isPunct_of_ahead hp])]
    simp only [Token.isPunct, beq_iff_eq] at hb
    exact ⟨t, ts, hp ▸ List.suffix_refl _, h, left_takeGroup_lt hp (by rw [hb]; rfl)⟩
  · rw [if_neg hb] at h
    exact absurd h (by simp)

/-! ## Methods -/

/-- What stands before the body of a function or method. -/
def skipHead (p : Parser) : Parser := skipColonType (skipParameters p.takeAngle)

/-- Skipping the head of a function only goes on. -/
theorem reaches_skipHead (p : Parser) : Reaches p p.skipHead :=
  ((reaches_takeAngle p).trans (reaches_skipParameters _)).trans (reaches_skipColonType _)

/-- Reading a body only goes on. -/
theorem reaches_body? (p : Parser) : Reaches p p.body?.2 := by
  unfold body?
  rw [apply_ite Prod.snd]
  exact .ite (fun _ => reaches_takeGroup p) (fun _ => .refl)

/-- The member that the rest of a method gives: its span and its body. -/
theorem methodRest_fst (p : Parser) (lo : Nat) (m : Member) :
    (p.methodRest lo m).1 =
      { m with
        span := ⟨lo, p.skipHead.body?.2.endOffset⟩
        type? := (skipParameters p.takeAngle).typeAnnotation?.1
        body? := p.skipHead.body?.1 } := by
  unfold methodRest skipHead skipParameters
  dsimp only
  rw [typeAnnotation?_snd]

/-- Where the rest of a method ends. -/
theorem methodRest_snd_eq (p : Parser) (lo : Nat) (m : Member) :
    (p.methodRest lo m).2 = skipBody p.skipHead := methodRest_snd p lo m

/-- A body that is there is taken as the whole rest. -/
theorem taken_skipBody (h : p.body?.1 = some o) : Taken p (skipBody p) o := by
  have htaken := taken_body? h
  rw [← skipBody_eq, h]
  exact htaken

/-- A member as far as it is known behind its name. -/
def memberHead (lo : Nat) (accessor : Option MemberKind) (modifiers : MemberModifiers)
    (name : MemberName) (p : Parser) : Member :=
  { kind := accessor.getD .property
    span := ⟨lo, lo⟩
    name := name.text
    nameKind := name.kind
    modifiers
    isOptional := p.isPunct .question
    isDefinite := p.isPunct .bang }

/-- Takes what follows the name of a member. -/
def memberRest (lo : Nat) (accessor : Option MemberKind) (modifiers : MemberModifiers)
    (name : MemberName) (p : Parser) : Member × Parser :=
  let m := memberHead lo accessor modifiers name p
  let q := skipMark p
  if !name.isIndex && (q.isPunct .openParen || q.isPunct .less) then
    q.methodRest lo { m with kind := methodKind accessor name }
  else q.propertyRest lo { m with kind := if name.isIndex then .indexSignature else m.kind }

/-- Takes a member from its name on. -/
def memberFrom (lo : Nat) (accessor : Option MemberKind) (modifiers : MemberModifiers)
    (p : Parser) : Option Member × Parser :=
  match p.memberName? with
  | (none, q) => (none, q)
  | (some name, q) =>
    let r := memberRest lo accessor modifiers name q
    (some r.1, r.2)

/-- A block in a class, where the parse stands behind it. -/
def staticBlock (lo : Nat) (modifiers : MemberModifiers) (p : Parser) : Member :=
  { kind := .staticBlock, span := ⟨lo, p.endOffset⟩, modifiers }

/-- Takes a member behind its modifiers. -/
def memberBehind (lo : Nat) (run : ModifierRun) (p : Parser) : Option Member × Parser :=
  if run.block then (some (staticBlock lo run.modifiers p.bump.takeGroup), p.bump.takeGroup)
  else memberFrom lo p.accessor? run.modifiers ((skipAccessor p).skipPunct .star)

/-- Takes a member behind its decorators. -/
def memberAfter (p : Parser) : Option Member × Parser :=
  memberBehind p.peek.span.lo (ModifierRun.read {} p.ahead)
    (p.advance (ModifierRun.read {} p.ahead).width)

/-- A member is what stands behind its decorators. -/
theorem member?_eq (p : Parser) : p.member? = memberAfter p.skipDecorators := rfl

section Member

variable {lo : Nat} {accessor : Option MemberKind} {modifiers : MemberModifiers}
  {name : MemberName}

/-- The rest of a method only goes on. -/
theorem reaches_methodRest (p : Parser) (lo : Nat) (m : Member) :
    Reaches p (p.methodRest lo m).2 := by
  rw [methodRest_snd_eq]
  exact (reaches_skipHead p).trans (reaches_skipBody _)

/-- The rest of a property only goes on. -/
theorem reaches_propertyRest (p : Parser) (lo : Nat) (m : Member) :
    Reaches p (p.propertyRest lo m).2 := by
  rw [propertyRest_snd]
  exact ((reaches_skipColonType p).trans (reaches_skipInitializer _)).trans (reaches_finishItem _)

/-- What stands behind the name of a member only goes on. -/
theorem reaches_memberRest (p : Parser) :
    Reaches (skipMark p) (memberRest lo accessor modifiers name p).2 := by
  unfold memberRest
  dsimp only
  rw [apply_ite Prod.snd]
  exact .ite (fun _ => reaches_methodRest _ _ _) (fun _ => reaches_propertyRest _ _ _)

/-- Reading the name of a member only goes on. -/
theorem reaches_memberName? (p : Parser) : Reaches p p.memberName?.2 := by
  have hname := congrArg Prod.snd (memberName?_eq p)
  dsimp only at hname
  rw [hname]
  exact reaches_nameBy _ p

/-- The body of a method is taken. -/
theorem taken_methodRest {m : Member} (ho : (p.methodRest lo m).1.body? = some o) :
    Taken p (p.methodRest lo m).2 o := by
  rw [methodRest_fst] at ho
  rw [methodRest_snd_eq]
  exact (taken_skipBody ho).of_reaches (reaches_skipHead p) .refl

/-- The body of a member is taken with what follows its name. -/
theorem taken_memberRest (ho : (memberRest lo accessor modifiers name p).1.body? = some o) :
    Taken (skipMark p) (memberRest lo accessor modifiers name p).2 o := by
  unfold memberRest at ho ⊢
  dsimp only at ho ⊢
  split at ho
  · rename_i hmethod
    rw [if_pos hmethod]
    exact taken_methodRest ho
  · -- a property has no body
    exact absurd ho (by simp [propertyRest, memberHead])

/-- A member only goes on from its name. -/
theorem reaches_memberFrom (p : Parser) :
    Reaches p.memberName?.2 (memberFrom lo accessor modifiers p).2 := by
  unfold memberFrom
  split
  · rename_i q hname
    rw [hname]
    exact .refl
  · rename_i name q hname
    rw [hname]
    exact (reaches_skipMark q).trans (reaches_memberRest q)

/-- The body of a member is taken from its name on. -/
theorem taken_memberFrom
    (ho : o ∈ memberBodies (memberFrom lo accessor modifiers p).1.toList) :
    Taken p.memberName?.2 (memberFrom lo accessor modifiers p).2 o := by
  unfold memberFrom at ho ⊢
  split at ho
  · exact absurd ho List.not_mem_nil
  · rename_i name q hname
    rw [hname]
    obtain ⟨a, ha, hbody⟩ := List.mem_filterMap.mp ho
    obtain rfl := List.mem_singleton.mp ha
    exact (taken_memberRest hbody).of_reaches (reaches_skipMark q) .refl

/-- What stands behind the decorators only goes on. -/
theorem reaches_memberAfter (p : Parser) : Reaches p (memberAfter p).2 := by
  have ha := reaches_advance p (ModifierRun.read {} p.ahead).width
  unfold memberAfter memberBehind
  rw [apply_ite Prod.snd]
  refine .ite (fun _ => (ha.trans (reaches_bump _)).trans (reaches_takeGroup _)) fun _ => ?_
  exact (((ha.trans (reaches_skipAccessor _)).trans (reaches_skipPunct _ .star)).trans
    (reaches_memberName? _)).trans (reaches_memberFrom _)

/-- The body behind the decorators is taken. -/
theorem taken_memberAfter (ho : o ∈ memberBodies (memberAfter p).1.toList) :
    Taken p (memberAfter p).2 o := by
  have ha := reaches_advance p (ModifierRun.read {} p.ahead).width
  unfold memberAfter memberBehind at ho ⊢
  by_cases hblock : (ModifierRun.read {} p.ahead).block = true
  · rw [if_pos hblock] at ho
    exact absurd ho List.not_mem_nil
  · rw [if_neg hblock] at ho ⊢
    exact (taken_memberFrom ho).of_reaches (((ha.trans (reaches_skipAccessor _)).trans
      (reaches_skipPunct _ .star)).trans (reaches_memberName? _)) .refl

end Member

/-! ## Functions and classes -/

/-- The bodies of two lists of members put together. -/
theorem memberBodies_append (ms ns : List Member) :
    memberBodies (ms ++ ns) = memberBodies ms ++ memberBodies ns := List.filterMap_append

/-- The loop over the members, unfolded once. -/
theorem membersFrom_eq (p : Parser) :
    membersFrom p =
      if p.bodyEnds then ([], p)
      else if p.isPunct .semicolon then membersFrom p.bump
      else (p.member?.1.toList ++ (membersFrom (pastItem p p.member?.2)).1,
        (membersFrom (pastItem p p.member?.2)).2) := by
  rw [membersFrom.eq_def]
  split
  · rfl
  · split <;> rfl

/-- Every body of a member is taken by the loop. -/
theorem taken_membersFrom (p : Parser) (h : o ∈ memberBodies (membersFrom p).1) :
    Taken p (membersFrom p).2 o := by
  fun_induction membersFrom p with
  | case1 p _ => exact absurd h List.not_mem_nil
  | case2 p _ _ ih => exact (ih h).of_reaches (reaches_bump p) .refl
  | case3 p _ _ q rest ih =>
    have hq : Reaches p q := reaches_member? p
    have hpast : Reaches q (if q.left = p.left then q.bump else q) := reaches_pastItem p q
    rw [memberBodies_append, List.mem_append] at h
    rcases h with h | h
    · -- a body of this member
      have hmember : Taken p.skipDecorators q o := taken_memberAfter h
      exact hmember.of_reaches (reaches_skipDecorators p) (hpast.trans (reaches_skipMembers _))
    · exact (ih h).of_reaches (hq.trans hpast) .refl

/-- Every body of a member is taken with the class. -/
theorem taken_classBody (h : o ∈ memberBodies p.classBody.1) : Taken p p.classBody.2 o :=
  (taken_membersFrom p.bump h).of_reaches (reaches_bump p) (reaches_expect _ .closeBrace)

/-- A declaration with the name at the cursor, if there is one. -/
def namedHead (m : DeclModifiers) (named : Bool) (p : Parser) : DeclHead :=
  if named then { m.head with name := p.peek.lexeme, nameSpan := p.peek.span } else m.head

/-- A function whose name is at the cursor, and which starts at the offset `lo`. -/
def functionItem (m : DeclModifiers) (lo : Nat) (isGenerator : Bool) (p : Parser) : Decl :=
  let d := (skipName p).skipHead
  .item { namedHead m (p.peek.kind = .ident) p with
    span := ⟨lo, d.body?.2.endOffset⟩
    body? := d.body?.1
    typeParams? := (skipName p).typeParams?.1 } (.function m.isAsync isGenerator)

/-- The declaration of a function: what it gives, and where it ends. -/
theorem functionDecl_eq (p : Parser) (m : DeclModifiers) :
    p.functionDecl m =
      (if (p.bump.skipPunct .star).peek.kind ≠ .ident ∧ m.exported ≠ .asDefault then []
        else [functionItem m (p.declStart m) (p.bump.isPunct .star) (p.bump.skipPunct .star)],
        skipFunction m (p.bump.skipPunct .star)) := by
  refine Prod.ext ?_ (functionDecl_snd p m)
  unfold functionDecl functionItem namedHead skipHead
  dsimp only
  generalize p.bump.skipPunct .star = a
  by_cases h : a.peek.kind ≠ .ident ∧ m.exported ≠ .asDefault
  · rw [if_pos h, if_pos h]
  · rw [if_neg h, if_neg h]
    dsimp only
    rw [typeParams?_snd]
    by_cases hname : a.peek.kind = .ident
    · simp only [hname, if_true, skipName, decide_true]
      rfl
    · simp only [hname, if_false, skipName, decide_false]
      rfl

/-- A class has a name here. -/
def isClassName (p : Parser) : Bool := p.peek.kind = .ident && !p.isWord "implements"

/-- What stands before the body of a class. -/
def skipClassHead (m : DeclModifiers) (p : Parser) : Parser :=
  (skipClassName m p).takeAngle.skipHeritage

/-- The members of a class, if it has a body. -/
def classMembers (p : Parser) : List Member :=
  if p.isPunct .openBrace then p.classBody.1 else []

/-- A class whose name is at the cursor, and which starts at the offset `lo`. -/
def classItem (m : DeclModifiers) (lo : Nat) (p : Parser) : Decl :=
  let d := skipClassHead m p
  .item { namedHead m (isClassName p) p with
    span := ⟨lo, (skipClassBody d).endOffset⟩
    body? := if d.isPunct .openBrace then some d.peek.span.lo else none
    typeParams? := (skipClassName m p).typeParams?.1 } (.classForm m.isAbstract (classMembers d))

/-- The declaration of a class: what it gives, and where it ends. -/
theorem classDecl_eq (p : Parser) (m : DeclModifiers) :
    p.classDecl m =
      (if !isClassName p.bump && m.exported ≠ .asDefault then []
        else [classItem m (p.declStart m) p.bump],
        skipClassBody (skipClassHead m p.bump)) := by
  refine Prod.ext ?_ (classDecl_snd p m)
  unfold classDecl classItem namedHead isClassName skipClassHead classMembers skipClassBody
  dsimp only
  rw [typeParams?_snd, apply_ite Prod.fst, apply_ite Prod.snd]
  rfl

/-- The head of a class only goes on. -/
theorem reaches_skipClassHead (m : DeclModifiers) (p : Parser) : Reaches p (skipClassHead m p) :=
  ((reaches_skipClassName m p).trans (reaches_takeAngle _)).trans
    (reaches_skipHeritage _)

/-- The body of a function is taken with it. -/
theorem taken_functionDecl (h : o ∈ Decl.bodiesOfAll (p.functionDecl m).1) :
    Taken p (p.functionDecl m).2 o := by
  rw [functionDecl_eq] at h ⊢
  dsimp only at h ⊢
  have hstar := (reaches_bump p).trans (reaches_skipPunct p.bump .star)
  generalize p.bump.skipPunct .star = a at h hstar ⊢
  unfold skipFunction
  by_cases hname : a.peek.kind ≠ .ident ∧ m.exported ≠ .asDefault
  · rw [if_pos hname] at h
    exact absurd h List.not_mem_nil
  · rw [if_neg hname] at h
    rw [if_neg hname]
    simp only [Decl.bodiesOfAll, functionItem, Decl.bodies, DeclForm.bodies, List.append_nil,
      Option.mem_toList] at h
    exact (taken_skipBody h).of_reaches
      ((hstar.trans (reaches_skipName a)).trans (reaches_skipHead _)) .refl

/-- Every body of a member is taken with the class around it. -/
theorem taken_skipClassBody (h : o ∈ memberBodies (classMembers p)) :
    Taken p (skipClassBody p) o := by
  unfold classMembers at h
  unfold skipClassBody
  by_cases hb : p.isPunct .openBrace = true
  · rw [if_pos hb] at h
    rw [if_pos hb]
    exact taken_classBody h
  · rw [if_neg hb] at h
    exact absurd h List.not_mem_nil

/-- Every body in a class is taken with its declaration. -/
theorem taken_classDecl (h : o ∈ Decl.bodiesOfAll (p.classDecl m).1) :
    Taken p (p.classDecl m).2 o := by
  rw [classDecl_eq] at h ⊢
  dsimp only at h ⊢
  have hhead := (reaches_bump p).trans (reaches_skipClassHead m p.bump)
  split at h
  · exact absurd h List.not_mem_nil
  · simp only [Decl.bodiesOfAll, classItem, Decl.bodies, DeclForm.bodies, List.append_nil] at h
    exact (taken_skipClassBody h).of_reaches hhead .refl

/-! ## Items -/

/-- The bodies in the declarations of an item; those in a namespace come later. -/
def itemBodies : Item → List Nat
  | .complete ds => Decl.bodiesOfAll ds
  | .opened _ _ => []

/-- The bodies in the declarations of the item are taken with it. -/
def TakesBodies (p : Parser) (a : Item × Parser) : Prop := ∀ o ∈ itemBodies a.1, Taken p a.2 o

/-- An item without bodies takes all it has. -/
theorem TakesBodies.of_no_bodies {i : Item} {q : Parser} (h : itemBodies i = []) :
    TakesBodies p (i, q) := fun _ ho => absurd (h ▸ ho) List.not_mem_nil

/-- An item may start further back. -/
theorem TakesBodies.of_reaches {a : Item × Parser} (h : TakesBodies q a) (hr : Reaches p q) :
    TakesBodies p a := fun o ho => (h o ho).of_reaches hr .refl

/-- An item of either branch takes its bodies. -/
theorem TakesBodies.ite {t : Prop} [Decidable t] {a b : Item × Parser} (ha : TakesBodies p a)
    (hb : TakesBodies p b) : TakesBodies p (if t then a else b) := by
  split
  · exact ha
  · exact hb

/-- No declared variable has a body. -/
theorem bodies_declarators (word : VarKeyword) (p : Parser) :
    Decl.bodiesOfAll (declarators m word p).1 = [] := by
  fun_induction declarators m word p with
  | case1 p _ => rfl
  | case2 p _ _ => rfl
  | case3 p _ name isPattern q hq lo head d hc rest ih => exact ih
  | case4 p _ name isPattern q hq lo head d hc => rfl

/-- No enumeration has a body that is recorded. -/
theorem bodies_enumDecl (p : Parser) (m : DeclModifiers) :
    Decl.bodiesOfAll (p.enumDecl m).1 = [] := by
  unfold enumDecl
  dsimp only
  split <;> rfl

/-- A namespace has its body recorded by the loop, not by its item. -/
theorem bodies_namespaceItem (p : Parser) (m : DeclModifiers) :
    itemBodies (p.namespaceItem m).1 = [] := by
  unfold namespaceItem
  dsimp only
  split <;> rfl

/-- Only functions and classes have bodies. -/
theorem eachDecl_takesBodies (p : Parser) (m : DeclModifiers) : EachDecl (TakesBodies p) p m where
  functionDecl := fun _ _ ho => taken_functionDecl ho
  classDecl := fun _ _ ho => taken_classDecl ho
  interfaceDecl := fun _ _ => .of_no_bodies rfl
  enumDecl := fun _ => .of_no_bodies (bodies_enumDecl p m)
  constEnumDecl := fun _ _ => .of_no_bodies (bodies_enumDecl _ _)
  variableDecl := fun _ => .of_no_bodies (bodies_declarators _ _)
  typeAliasDecl := fun _ _ => .of_no_bodies rfl
  namespaceItem := fun _ _ _ _ => .of_no_bodies (bodies_namespaceItem p m)

/-- A declaration takes its bodies. -/
theorem findsTaken_declItem? (p : Parser) (exported : ExportMode) :
    Finds (TakesBodies p) (p.declItem? exported) :=
  ((eachDecl_takesBodies _ _).declRest? _).imp fun _ h => h.of_reaches (reaches_advance p _)

/-- So does a default export. -/
theorem takesBodies_defaultItem (p : Parser) : TakesBodies p (defaultItem p) :=
  (findsTaken_declItem? p .asDefault).orElse (.of_no_bodies rfl)

/-- So does an export with a name. -/
theorem takesBodies_namedItem (p : Parser) : TakesBodies p (namedItem p) :=
  (findsTaken_declItem? p .named).orElse (.ite (.of_no_bodies rfl) (.of_no_bodies rfl))

/-- So does every export. -/
theorem takesBodies_exportItem (p : Parser) : TakesBodies p p.exportItem := by
  rw [exportItem_eq]
  refine .ite ?_ ?_
  · have hreaches := (reaches_bump p).trans (reaches_skipDecorators p.bump)
    exact (takesBodies_defaultItem _).of_reaches hreaches
  -- an exported value and a clause have no body
  refine .ite (.of_no_bodies rfl) ?_
  refine .ite (.of_no_bodies rfl) ?_
  exact (takesBodies_namedItem _).of_reaches (reaches_skipDecorators p)

/-- So does every item behind its decorators. -/
theorem takesBodies_undecoratedItem (p : Parser) : TakesBodies p (undecoratedItem p) := by
  refine .ite ?_ (.ite ?_ ?_)
  · -- an import
    exact .ite (.of_no_bodies rfl) (.of_no_bodies rfl)
  · exact (takesBodies_exportItem _).of_reaches (reaches_bump p)
  · exact (findsTaken_declItem? p .none).orElse (.of_no_bodies rfl)

/-- Every item takes the bodies that it records. -/
theorem takesBodies_item (p : Parser) : TakesBodies p p.item := by
  rw [item_eq]
  exact .ite (.of_no_bodies rfl)
    ((takesBodies_undecoratedItem _).of_reaches (reaches_skipDecorators p))

/-! ## Modules -/

/-- The bodies of a finished namespace are those of its members. -/
theorem bodiesOfAll_finish (s : SpaceStart) (body? : Option Nat) (ds : List Decl) (p : Parser) :
    Decl.bodiesOfAll [s.finish body? ds p] = Decl.bodiesOfAll ds := by
  simp [SpaceStart.finish, Decl.bodiesOfAll, Decl.bodies]

/-- The bodies in the declarations of the item at the cursor, also where it is a namespace. -/
theorem taken_itemDecls (p : Parser)
    (hinner : ∀ q : Parser, q.left < p.left → ∀ o ∈ Decl.bodiesOfAll (itemsFrom true q).1.1,
      Taken q (itemsFrom true q).1.2 o) (h : o ∈ Decl.bodiesOfAll p.itemDecls) :
    Taken p p.afterItem o := by
  have hreach := reaches_item p
  have hitem := takesBodies_item p
  cases hi : p.item with
  | mk i q =>
    rw [hi] at hreach hitem
    cases i with
    | complete ds =>
      rw [itemDecls_of_complete hi] at h
      rw [afterItem_of_complete hi]
      exact (hitem o h).of_reaches .refl (reaches_pastItem p q)
    | opened s body =>
      rw [itemDecls_of_opened hi, bodiesOfAll_finish] at h
      rw [afterItem_of_opened hi]
      exact (hinner q (left_item_lt_of_opened hi) o h).of_reaches hreach
        (reaches_expect _ .closeBrace)

/-- **Bodies are taken.** Every body that the declarations from here on note starts with a token
that is taken with them. -/
theorem taken_itemsFrom {o : Nat} (inBody : Bool) (p : Parser)
    (h : o ∈ Decl.bodiesOfAll (itemsFrom inBody p).1.1) : Taken p (itemsFrom inBody p).1.2 o := by
  by_cases hend : p.itemsEnd inBody = true
  · rw [itemsFrom_of_itemsEnd hend] at h
    exact absurd h List.not_mem_nil
  have hlt := left_afterItem_lt (atEnd_of_itemsEnd hend)
  rw [itemsFrom_eq hend] at h ⊢
  rw [Decl.bodiesOfAll_append, List.mem_append] at h
  rcases h with h | h
  · exact (taken_itemDecls p (fun q _ o ho => taken_itemsFrom true q ho) h).of_reaches .refl
      (reaches_itemsFrom _ _)
  · exact (taken_itemsFrom inBody p.afterItem h).of_reaches (reaches_afterItem p) .refl
termination_by p.left

end Parser

end SignatureLedger
