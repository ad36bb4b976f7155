import SignatureLedger.Declaration
import SignatureLedger.Text.Bytes

/-!
# Well nested declarations

A declaration has its name, its type parameters and its body in it, and in its body the members of
a class or the declarations of a namespace, one behind the other (`Decl.WellNested`). In a list of
such declarations (`Decl.Forest`) only namespaces hold others (`Decl.Forest.starts_apart`), and what
is taken from the source for a declaration is there (`Decl.Forest.inRange`).
-/

namespace SignatureLedger

/-! ## Spans in order -/

namespace Span

/-- The span is not empty and lies between two offsets. -/
structure Between (s : Span) (lo hi : Nat) : Prop where
  lo_le : lo ≤ s.lo
  lt : s.lo < s.hi
  hi_le : s.hi ≤ hi

/-- The spans lie one behind the other between two offsets. -/
def InOrder (lo hi : Nat) : List Span → Prop
  | [] => True
  | s :: ss => s.Between lo hi ∧ InOrder s.hi hi ss

variable {s : Span} {ss ts : List Span} {lo lo' mid mid' hi hi' : Nat}

/-- What lies between two offsets lies between any wider ones. -/
theorem Between.mono (h : s.Between lo hi) (hlo : lo' ≤ lo) (hhi : hi ≤ hi') : s.Between lo' hi' :=
  ⟨Nat.le_trans hlo h.lo_le, h.lt, Nat.le_trans h.hi_le hhi⟩

/-- Each of some spans in order lies between the offsets. -/
theorem InOrder.between (h : InOrder lo hi ss) (hs : s ∈ ss) : s.Between lo hi := by
  induction ss generalizing lo with
  | nil => exact absurd hs List.not_mem_nil
  | cons t ss ih =>
    rcases List.mem_cons.mp hs with rfl | hs
    · exact h.1
    · have := h.1.lo_le
      have := h.1.lt
      exact (ih h.2 hs).mono (by omega) (Nat.le_refl _)

/-- Spans in order stay so between wider offsets. -/
theorem InOrder.mono (h : InOrder lo hi ss) (hlo : lo' ≤ lo) (hhi : hi ≤ hi') :
    InOrder lo' hi' ss := by
  induction ss generalizing lo lo' with
  | nil => trivial
  | cons s ss ih => exact ⟨h.1.mono hlo hhi, ih h.2 (Nat.le_refl _)⟩

/-- Spans in order, and further ones behind them. -/
theorem InOrder.append (hs : InOrder lo mid ss) (ht : InOrder mid' hi ts) (hlo : lo ≤ mid)
    (hmid : mid ≤ mid') (hhi : mid' ≤ hi) : InOrder lo hi (ss ++ ts) := by
  induction ss generalizing lo with
  | nil => exact ht.mono (Nat.le_trans hlo hmid) (Nat.le_refl _)
  | cons s ss ih =>
    exact ⟨hs.1.mono (Nat.le_refl _) (Nat.le_trans hmid hhi), ih hs.2 hs.1.hi_le⟩

end Span

/-! ## Well nested declarations -/

/-- The name, the type parameters and the body lie in the declaration. -/
structure DeclHead.Fits (h : DeclHead) : Prop where
  name : h.nameSpan = ⟨0, 0⟩ ∧ h.name = [] ∨ h.nameSpan.Between h.span.lo h.span.hi
  typeParams : ∀ s ∈ h.typeParams?, s.Between h.span.lo h.span.hi
  body : ∀ b ∈ h.body?, h.span.lo < b ∧ b < h.span.hi

/-- The spans lie one behind the other in the body of the declaration. -/
def DeclHead.Holds (h : DeclHead) (ss : List Span) : Prop :=
  ss = [] ∨ ∃ b ∈ h.body?, Span.InOrder (b + 1) h.span.hi ss

/-- The body of a member lies in the member. -/
def Member.Fits (m : Member) : Prop := ∀ b ∈ m.body?, m.span.lo < b ∧ b < m.span.hi

/-- The members of a form: those of a class, and else none. -/
def DeclForm.members : DeclForm → List Member
  | .classForm _ members => members
  | _ => []

/-- A declaration holds what belongs to it, and so does every declaration in it. -/
inductive Decl.WellNested : Decl → Prop
  | item {h : DeclHead} {form : DeclForm} (head : h.Fits)
      (order : h.Holds (form.members.map (·.span))) (members : ∀ m ∈ form.members, m.Fits) :
      WellNested (.item h form)
  | space {h : DeclHead} {isGlobal : Bool} {children : List Decl} (head : h.Fits)
      (order : h.Holds (children.map (·.head.span))) (inner : ∀ d ∈ children, WellNested d) :
      WellNested (.space h isGlobal children)

/-- The declarations lie one behind the other between two offsets, each of them well nested. -/
structure Decl.Forest (lo hi : Nat) (ds : List Decl) : Prop where
  order : Span.InOrder lo hi (ds.map (·.head.span))
  nested : ∀ d ∈ ds, d.WellNested

/-- The same of the members of a class. -/
structure Member.Row (lo hi : Nat) (ms : List Member) : Prop where
  order : Span.InOrder lo hi (ms.map (·.span))
  fits : ∀ m ∈ ms, m.Fits

namespace Decl.Forest

variable {ds es : List Decl} {d : Decl} {lo lo' mid mid' hi hi' : Nat}

/-- No declarations are a forest. -/
theorem nil : Forest lo hi [] := ⟨trivial, fun _ hd => absurd hd List.not_mem_nil⟩

/-- One declaration that is well nested is a forest. -/
theorem single (hspan : d.head.span.Between lo hi) (hd : d.WellNested) : Forest lo hi [d] :=
  ⟨⟨hspan, trivial⟩, fun _ he => List.mem_singleton.mp he ▸ hd⟩

/-- A forest is one between any wider offsets. -/
theorem mono (h : Forest lo hi ds) (hlo : lo' ≤ lo) (hhi : hi ≤ hi') : Forest lo' hi' ds :=
  ⟨h.order.mono hlo hhi, h.nested⟩

/-- Two forests, one behind the other. -/
theorem append (hd : Forest lo mid ds) (he : Forest mid' hi es) (hlo : lo ≤ mid)
    (hmid : mid ≤ mid') (hhi : mid' ≤ hi) : Forest lo hi (ds ++ es) := by
  refine ⟨?_, fun d hmem => (List.mem_append.mp hmem).elim (hd.nested d) (he.nested d)⟩
  rw [List.map_append]
  exact hd.order.append he.order hlo hmid hhi

end Decl.Forest

namespace Member.Row

variable {ms ns : List Member} {m : Member} {lo lo' mid mid' hi hi' : Nat}

/-- No members are a row. -/
theorem nil : Row lo hi [] := ⟨trivial, fun _ hm => absurd hm List.not_mem_nil⟩

/-- One member that fits is a row. -/
theorem single (hspan : m.span.Between lo hi) (hm : m.Fits) : Row lo hi [m] :=
  ⟨⟨hspan, trivial⟩, fun _ hn => List.mem_singleton.mp hn ▸ hm⟩

/-- A row is one between any wider offsets. -/
theorem mono (h : Row lo hi ms) (hlo : lo' ≤ lo) (hhi : hi ≤ hi') : Row lo' hi' ms :=
  ⟨h.order.mono hlo hhi, h.fits⟩

/-- Two rows, one behind the other. -/
theorem append (hm : Row lo mid ms) (hn : Row mid' hi ns) (hlo : lo ≤ mid) (hmid : mid ≤ mid')
    (hhi : mid' ≤ hi) : Row lo hi (ms ++ ns) := by
  refine ⟨?_, fun m hmem => (List.mem_append.mp hmem).elim (hm.fits m) (hn.fits m)⟩
  rw [List.map_append]
  exact hm.order.append hn.order hlo hmid hhi

end Member.Row

/-! ## Declarations anywhere in a tree -/

namespace Decl

/-- The declaration is one of the list, or one in the body of a namespace of the list. -/
inductive Occurs (d : Decl) : List Decl → Prop
  | here {ds : List Decl} (hd : d ∈ ds) : Occurs d ds
  | inside {h : DeclHead} {isGlobal : Bool} {children ds : List Decl}
      (hspace : .space h isGlobal children ∈ ds) (hd : Occurs d children) : Occurs d ds

variable {ds children : List Decl} {d e : Decl} {h : DeclHead} {form : DeclForm} {isGlobal : Bool}
  {lo hi : Nat}

/-- What a namespace holds lies in it. -/
theorem WellNested.forest (hs : (Decl.space h isGlobal children).WellNested) :
    Forest h.span.lo h.span.hi children := by
  cases hs with
  | space head order inner =>
    refine ⟨?_, inner⟩
    rcases order with hnil | ⟨b, hb, horder⟩
    · rw [hnil]
      trivial
    · have := head.body b hb
      exact horder.mono (by omega) (Nat.le_refl _)

namespace Forest

/-- Each declaration of a forest lies between the offsets. -/
theorem between (hf : Forest lo hi ds) (hd : d ∈ ds) : d.head.span.Between lo hi :=
  hf.order.between (List.mem_map_of_mem hd)

/-- Wherever a declaration is in a forest, it lies in it and is well nested. -/
theorem of_occurs (hf : Forest lo hi ds) (hd : d.Occurs ds) :
    d.head.span.Between lo hi ∧ d.WellNested := by
  induction hd generalizing lo hi with
  | here hd => exact ⟨hf.between hd, hf.nested d hd⟩
  | inside hspace hd ih =>
    have hinner := ih (hf.nested _ hspace).forest
    have houter := hf.between hspace
    exact ⟨hinner.1.mono houter.lo_le houter.hi_le, hinner.2⟩

/-- Two declarations of a list are the same one, or one of them ends before the other one starts. -/
theorem apart (hf : Forest lo hi ds) (hd : d ∈ ds) (he : e ∈ ds) :
    d = e ∨ d.head.span.hi ≤ e.head.span.lo ∨ e.head.span.hi ≤ d.head.span.lo := by
  obtain ⟨horder, hnested⟩ := hf
  clear hnested
  induction ds generalizing lo with
  | nil => exact absurd hd List.not_mem_nil
  | cons f fs ih =>
    have hbehind : ∀ {g : Decl}, g ∈ fs → f.head.span.hi ≤ g.head.span.lo := fun hg =>
      (horder.2.between (List.mem_map_of_mem hg)).lo_le
    rcases List.mem_cons.mp hd with rfl | hd' <;> rcases List.mem_cons.mp he with rfl | he'
    · exact .inl rfl
    · exact .inr (.inl (hbehind he'))
    · exact .inr (.inr (hbehind hd'))
    · exact ih hd' he' horder.2

/-- A declaration of the list is the other one, has it in it, or lies apart from it. -/
theorem starts_apart_of_mem (hf : Forest lo hi ds) (he : e ∈ ds) (hd : d.Occurs ds) :
    d = e ∨ (∃ h isGlobal children, e = .space h isGlobal children ∧ d.Occurs children) ∨
      d.head.span.hi ≤ e.head.span.lo ∨ e.head.span.hi ≤ d.head.span.lo := by
  cases hd with
  | here hd => exact (hf.apart hd he).imp_right .inr
  | @inside h isGlobal children _ hspace hd =>
    have hinner := ((hf.nested _ hspace).forest.of_occurs hd).1
    rcases hf.apart hspace he with rfl | hapart
    · exact .inr (.inl ⟨h, isGlobal, children, rfl, hd⟩)
    · refine .inr (.inr (hapart.imp (Nat.le_trans hinner.hi_le) fun hle => ?_))
      exact Nat.le_trans hle hinner.lo_le

/-- **Only namespaces hold declarations.** No declaration starts inside another one that is no
namespace, its body included. -/
theorem starts_apart (hf : Forest lo hi ds) (hitem : (Decl.item h form).Occurs ds)
    (hd : d.Occurs ds) : d.head.span.lo ≤ h.span.lo ∨ h.span.hi ≤ d.head.span.lo := by
  induction hitem generalizing lo hi with
  | here hitem =>
    rcases hf.starts_apart_of_mem hitem hd with rfl | ⟨_, _, _, heq, -⟩ | hle | hle
    · exact .inl (Nat.le_refl _)
    · exact absurd heq (by simp)
    · exact .inl (Nat.le_trans (Nat.le_of_lt (hf.of_occurs hd).1.lt) hle)
    · exact .inr hle
  | inside hspace hitem ih =>
    have hforest := (hf.nested _ hspace).forest
    have hinner := (hforest.of_occurs hitem).1
    rcases hf.starts_apart_of_mem hspace hd with rfl | ⟨_, _, _, heq, hd'⟩ | hle | hle
    · exact .inl hinner.lo_le
    · obtain ⟨rfl, rfl, rfl⟩ := Decl.space.inj heq
      exact ih hforest hd'
    · have hlt := (hf.of_occurs hd).1.lt
      exact .inl (Nat.le_trans (Nat.le_of_lt hlt) (Nat.le_trans hle hinner.lo_le))
    · exact .inr (Nat.le_trans hinner.hi_le hle)

end Forest

end Decl

/-! ## What is taken from the source -/

/-- The source has the range, so that `Bytes.slice` takes what is there. -/
def Bytes.HasRange (s : Bytes) (lo hi : Nat) : Prop := lo ≤ hi ∧ hi ≤ s.length

/-- The ranges are there that the text of a declaration is taken from: all of it, what stands before
its body, its type parameters, and of each member what stands before its body. -/
structure DeclHead.InRange (source : Bytes) (h : DeclHead) (form : DeclForm) : Prop where
  whole : source.HasRange h.span.lo h.span.hi
  signature : source.HasRange h.span.lo (h.body?.getD h.span.hi)
  typeParams : ∀ s ∈ h.typeParams?, source.HasRange s.lo s.hi
  members : ∀ m ∈ form.members, source.HasRange m.span.lo (m.body?.getD m.span.hi)

namespace Decl

variable {source : Bytes} {ds : List Decl} {h : DeclHead} {form : DeclForm} {lo hi : Nat}

/-- A declaration that is well nested in the source is in range. Its body, its type parameters and
its members lie between its ends. -/
theorem WellNested.inRange (hd : (Decl.item h form).WellNested) (hlt : h.span.lo < h.span.hi)
    (hle : h.span.hi ≤ source.length) : h.InRange source form := by
  cases hd with
  | item head order members =>
    refine ⟨⟨Nat.le_of_lt hlt, hle⟩, ?_, fun s hs => ?_, fun m hm => ?_⟩
    · cases hb : h.body? with
      | none => exact ⟨Nat.le_of_lt hlt, hle⟩
      | some b =>
        have := head.body b hb
        exact ⟨Nat.le_of_lt this.1, Nat.le_trans (Nat.le_of_lt this.2) hle⟩
    · have := head.typeParams s hs
      exact ⟨Nat.le_of_lt this.lt, Nat.le_trans this.hi_le hle⟩
    · -- a member lies behind the brace that opens the body
      rcases order with hnil | ⟨b, -, horder⟩
      · rw [List.map_eq_nil_iff.mp hnil] at hm
        exact absurd hm List.not_mem_nil
      have hspan := horder.between (List.mem_map_of_mem hm)
      have hmember := Nat.le_trans hspan.hi_le hle
      cases hb : m.body? with
      | none => exact ⟨Nat.le_of_lt hspan.lt, hmember⟩
      | some b =>
        have := members m hm b hb
        exact ⟨Nat.le_of_lt this.1, Nat.le_trans (Nat.le_of_lt this.2) hmember⟩

/-- **What is taken from the source is there.** -/
theorem Forest.inRange (hf : Forest lo hi ds) (hd : (Decl.item h form).Occurs ds)
    (hle : hi ≤ source.length) : h.InRange source form := by
  obtain ⟨hspan, hnested⟩ := hf.of_occurs hd
  exact hnested.inRange hspan.lt (Nat.le_trans hspan.hi_le hle)

end Decl

end SignatureLedger
