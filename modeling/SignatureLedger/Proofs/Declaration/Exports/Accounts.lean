import SignatureLedger.Proofs.Declaration.Exports.Excuse
import SignatureLedger.Proofs.Declaration.Reaches

/-!
# Accounts of the tokens that are taken

For each token that a quiet parse takes there is an account of why it was taken there. A kind of
account is a property of the token and of the tokens on both sides of it which does not depend on
how far back one looks (`Grounds`), so that the accounts of the parts of a stretch
(`Grounds.Covers`) and of the moves of a parse (`Grounds.Accounts`) can be put together.
-/

namespace SignatureLedger

/-! ## Each token of a stretch -/

namespace Extent

/-- If all is closed in the stretch at the front of `ts`, each of its tokens has the property. The
tokens `x` in front of them all are in view. -/
def Each (P : List Token → Token → List Token → Prop) (x : List Token) (E : Extent)
    (ts : List Token) : Prop :=
  E.unclosed? = none → ∀ u e post, ts = u ++ e :: post → u.length < E.width → P (x ++ u) e post

variable {P : List Token → Token → List Token → Prop} {x y ts rest : List Token} {t : Token}
  {n : Nat} {E : Extent}

/-- An empty stretch has no token. -/
theorem each_nothing (P : List Token → Token → List Token → Prop) (x ts : List Token) :
    Each P x ⟨0, none⟩ ts := fun _ _ _ _ _ hlt => absurd hlt (Nat.not_lt_zero _)

/-- Where a bracket is left open nothing is asked. -/
theorem Each.of_unclosed (h : E.unclosed?.isSome = true) : E.Each P x ts :=
  fun hclosed => absurd h (by simp [hclosed])

/-- One token is a stretch of its own. -/
theorem each_one (ht : P x t rest) : Each P x ⟨1, none⟩ (t :: rest) := by
  intro _ u e post hts hlt
  obtain rfl : u = [] := List.length_eq_zero_iff.mp (Nat.lt_one_iff.mp hlt)
  obtain ⟨rfl, rfl⟩ := List.cons.inj hts
  rwa [List.append_nil]

/-- What else is in view can be changed where the property allows it. -/
theorem Each.lift (h : E.Each P y ts) (hP : ∀ {u e post}, P (y ++ u) e post → P (x ++ u) e post) :
    E.Each P x ts := fun hclosed u e post hts hlt => hP (h hclosed u e post hts hlt)

/-- The stretch goes on behind `n` tokens, which come into view. -/
theorem Each.behind (hfront : Each P x ⟨n, none⟩ ts) (h : E.Each P (x ++ ts.take n) (ts.drop n)) :
    (E.shift n).Each P x ts := by
  intro hclosed u e post hts hlt
  by_cases hn : u.length < n
  · exact hfront rfl u e post hts hn
  have hle : n ≤ u.length := Nat.le_of_not_lt hn
  have htake : ts.take n = u.take n := by rw [hts, List.take_append_of_le_length hle]
  have hrest := h hclosed (u.drop n) e post (by rw [hts, List.drop_append_of_le_length hle]) (by
    have hwidth : u.length < n + E.width := hlt
    rw [List.length_drop]
    omega)
  rwa [htake, List.append_assoc, List.take_append_drop] at hrest

/-- One stretch behind the other. -/
theorem Each.andThen {F : List Token → Extent} (h : E.Each P x ts)
    (hF : (F (ts.drop E.width)).Each P (x ++ ts.take E.width) (ts.drop E.width)) :
    (E.andThen F ts).Each P x ts := by
  intro hclosed
  have hboth := closed_of_andThen hclosed
  rw [andThen_of_closed hboth.1] at hclosed ⊢
  exact Each.behind (fun _ => h hboth.1) hF hclosed

end Extent

/-- A property of a token between the tokens before it and those behind it, whatever stands in front
of all of them. -/
structure Grounds where
  Holds : List Token → Token → List Token → Prop
  behind {u : List Token} {e : Token} {post : List Token} (x : List Token) (h : Holds u e post) :
    Holds (x ++ u) e post

namespace Grounds

variable {g : Grounds} {u v ts rest post : List Token} {t e : Token} {n : Nat} {E : Extent}

/-! ## Three kinds of accounts -/

/-- Outside all brackets the token is no closing bracket, and an `export` only where it is excused,
look-ahead apart. -/
def passed : Grounds where
  Holds u e post := Outside u →
    LookAhead u e post
      ∨ e.kind.isCloser = false ∧ (e.isKeyword .exportKw = true → Excuse u e post)
  behind x h := fun hout => (h hout.of_append).imp (.behind x)
    fun h => ⟨h.1, fun he => (h.2 he).behind x⟩

/-- Outside all brackets the token is no closing bracket, look-ahead apart. -/
def closing : Grounds where
  Holds u e post := Outside u → e.kind.isCloser = true → LookAhead u e post
  behind x h := fun hout hc => (h hout.of_append hc).behind x

/-- Outside all brackets the token is an `export` only where it is excused, look-ahead apart. -/
def exporting : Grounds where
  Holds u e post := Outside u → e.isKeyword .exportKw = true →
    LookAhead u e post ∨ Excuse u e post
  behind x h := fun hout he => (h hout.of_append he).imp (.behind x) (.behind x)

/-- A token that is neither a closing bracket nor an `export` needs no excuse. -/
theorem passed_of_not (hc : e.kind.isCloser = false) (he : e.isKeyword .exportKw = false) :
    passed.Holds u e post := fun _ => .inr ⟨hc, fun h => absurd h (by simp [he])⟩

/-- An excuse is enough for a token that is no closing bracket. -/
theorem passed_of_excuse (hc : e.kind.isCloser = false) (h : Excuse u e post) :
    passed.Holds u e post := fun _ => .inr ⟨hc, fun _ => h⟩

/-- The full account tells what is asked of closing brackets. -/
theorem Holds.closing (h : passed.Holds u e post) : closing.Holds u e post :=
  fun hout hc => (h hout).resolve_right fun h => absurd h.1 (by simp [hc])

/-- The full account tells what is asked of exports. -/
theorem Holds.exporting (h : passed.Holds u e post) : exporting.Holds u e post :=
  fun hout he => (h hout).imp_right fun h => h.2 he

/-! ## Accounts of a stretch -/

/-- The stretch at the front of the tokens is accounted for. -/
def Covers (g : Grounds) (E : Extent) (ts : List Token) : Prop := E.Each g.Holds [] ts

/-- Nothing has to be accounted for in an empty stretch. -/
theorem covers_nothing (g : Grounds) (ts : List Token) : g.Covers ⟨0, none⟩ ts :=
  Extent.each_nothing g.Holds [] ts

/-- The stretch goes on behind `n` tokens. -/
theorem Covers.behind (hfront : g.Covers ⟨n, none⟩ ts) (h : g.Covers E (ts.drop n)) :
    g.Covers (E.shift n) ts :=
  Extent.Each.behind hfront (h.lift fun hu => g.behind (ts.take n) hu)

/-- The stretch goes on behind a token and `n` more. -/
theorem Covers.behind_cons (hfront : g.Covers ⟨1 + n, none⟩ (t :: rest))
    (h : g.Covers E (rest.drop n)) : g.Covers (E.shift (1 + n)) (t :: rest) := by
  refine .behind hfront ?_
  rwa [Nat.add_comm, List.drop_succ_cons]

/-- The stretch goes on behind one token. -/
theorem Covers.cons (ht : g.Holds [] t rest) (h : g.Covers E rest) :
    g.Covers (E.shift 1) (t :: rest) := .behind (Extent.each_one ht) h

/-- One stretch behind the other. -/
theorem Covers.andThen {F : List Token → Extent} (h : g.Covers E ts)
    (hF : g.Covers (F (ts.drop E.width)) (ts.drop E.width)) : g.Covers (E.andThen F ts) ts :=
  Extent.Each.andThen h (hF.lift fun hu => g.behind (ts.take E.width) hu)

/-- The front part of a stretch that is closed. -/
theorem Covers.front (h : g.Covers (E.shift n) ts) (hclosed : ¬ E.unclosed?.isSome = true) :
    g.Covers ⟨n + E.width, none⟩ ts :=
  fun _ => h (by simpa [Extent.shift] using hclosed)

/-! ## Accounts of a move -/

/-- `q` comes from `p`, and if the parse is quiet, all that is taken on the way is accounted for. -/
structure Accounts (g : Grounds) (p q : Parser) : Prop where
  reaches : p.Reaches q
  holds : q.Quiet → ∀ u e post, p.ahead = u ++ e :: post → q.left ≤ post.length →
    g.Holds u e post

namespace Accounts

open SignatureLedger.Parser

variable {p q r : Parser}

/-- A token that a stretch takes away stands in it. -/
theorem length_lt_of_take (hp : p.ahead = u ++ e :: post) (hle : (p.take E).left ≤ post.length) :
    u.length < E.width := by
  have hleft : p.left = (u ++ e :: post).length := congrArg List.length hp
  rw [left_take] at hle
  rw [List.length_append, List.length_cons] at hleft
  omega

/-- A token that is left behind a move stands among the tokens ahead there. -/
theorem exists_of_left_lt {x : List Token} (hx : p.ahead = x ++ q.ahead)
    (hp : p.ahead = u ++ e :: post) (hlt : post.length < q.left) :
    ∃ v, u = x ++ v ∧ q.ahead = v ++ e :: post := by
  have hsuffix : e :: post <:+ q.ahead := by
    refine List.suffix_of_suffix_length_le (hp ▸ List.suffix_append u (e :: post)) ⟨x, hx.symm⟩ ?_
    exact hlt
  obtain ⟨v, hv⟩ := hsuffix
  refine ⟨v, ?_, hv.symm⟩
  rw [hp, ← hv, ← List.append_assoc] at hx
  exact List.append_cancel_right hx

/-- Staying passes nothing. -/
theorem refl : g.Accounts p p where
  reaches := .refl
  holds := fun _ u e post hp hle => by
    have hleft : p.left = (u ++ e :: post).length := congrArg List.length hp
    rw [List.length_append, List.length_cons] at hleft
    omega

/-- One move after the other. -/
theorem trans (hpq : g.Accounts p q) (hqr : g.Accounts q r) : g.Accounts p r where
  reaches := hpq.reaches.trans hqr.reaches
  holds := by
    intro hr u e post hp hle
    have hq := Quiet.of_reaches hqr.reaches hr
    by_cases hfirst : q.left ≤ post.length
    · exact hpq.holds hq u e post hp hfirst
    -- the token is left by the first move, and is accounted for in the second one
    obtain ⟨x, hx⟩ := suffix_of_reaches hpq.reaches
    obtain ⟨v, rfl, hv⟩ := exists_of_left_lt hx.symm hp (Nat.lt_of_not_le hfirst)
    exact g.behind x (hqr.holds hr v e post hv hle)

/-- Behind the first move a stretch is taken, each token of which is accounted for with the tokens
of that move in view. -/
theorem take_behind {x : List Token} (hpq : g.Accounts p q) (hx : p.ahead = x ++ q.ahead)
    (h : E.Each g.Holds x q.ahead) : g.Accounts p (q.take E) where
  reaches := hpq.reaches.trans (reaches_take q E)
  holds := by
    intro hr u e post hp hle
    have hq := Quiet.of_reaches (reaches_take q E) hr
    by_cases hfirst : q.left ≤ post.length
    · exact hpq.holds hq u e post hp hfirst
    obtain ⟨v, rfl, hv⟩ := exists_of_left_lt hx hp (Nat.lt_of_not_le hfirst)
    exact h (unclosed?_of_quiet hr) v e post hv (length_lt_of_take hv hle)

/-- Either of two ways. -/
theorem ite {a b : Parser} {c : Prop} [Decidable c] (ha : c → g.Accounts p a)
    (hb : ¬ c → g.Accounts p b) : g.Accounts p (if c then a else b) := by
  split
  · exact ha ‹_›
  · exact hb ‹_›

/-- Nothing is asked of a move that is not quiet. -/
theorem of_loud (hr : p.Reaches q) (hq : ¬ q.Quiet) : g.Accounts p q :=
  ⟨hr, fun h => absurd h hq⟩

/-- Nor behind a report. -/
theorem of_report {code : Diagnostic.Code} {span : Span} {arg : Bytes}
    (hr : (p.report code span arg).Reaches q) : g.Accounts p q :=
  .of_loud ((reaches_report p _ _ _).trans hr) (not_quiet_of_report hr)

/-- The accounts of a stretch are those of the move that takes it. -/
theorem of_take (h : g.Covers E p.ahead) : g.Accounts p (p.take E) := refl.take_behind rfl h

/-- The accounts of so many tokens are those of the move over them. -/
theorem of_advance (h : g.Covers ⟨n, none⟩ p.ahead) : g.Accounts p (p.advance n) := .of_take h

/-- One token is taken, if there is one. -/
theorem of_bump (h : ∀ t rest, p.ahead = t :: rest → g.Holds [] t rest) :
    g.Accounts p p.bump := by
  rw [bump_eq_advance]
  refine .of_advance ?_
  cases hp : p.ahead with
  | nil => exact fun _ u e post hts => absurd hts (by simp)
  | cons t rest => exact Extent.each_one (h t rest hp)

/-- What is accounted for in one way is so in another. -/
theorem imp {g' : Grounds} (h : g.Accounts p q)
    (hg : ∀ {u e post}, g.Holds u e post → g'.Holds u e post) : g'.Accounts p q :=
  ⟨h.reaches, fun hq u e post hp hle => hg (h.holds hq u e post hp hle)⟩

/-- A way with the full account has that of closing brackets. -/
theorem closing (h : passed.Accounts p q) : closing.Accounts p q := h.imp Holds.closing

/-- A way with the full account has that of exports. -/
theorem exporting (h : passed.Accounts p q) : exporting.Accounts p q := h.imp Holds.exporting

end Accounts

end Grounds

end SignatureLedger
