import SignatureLedger.Proofs.Declaration.Bodies
import SignatureLedger.Proofs.Declaration.Twin.Types
import SignatureLedger.Proofs.Signature.Offers

/-!
# Bodies that differ

Two parses that are abreast up to a body can be abreast again behind it, whatever stands inside. A
`Runs.Hole` is such a body: its first brace opens both tails, and behind the groups that start there
the parses are two further runs. A parse that notes a body at the hole, or does not come to it, is
one of which something can be said (`Lives`); then it is abreast with the other one before or behind
the hole (`Along`).
-/

namespace SignatureLedger

open SignatureLedger.Parser SignatureLedger.Normal

/-! ## Texts of two runs -/

namespace Runs

/-- Stretches of the two sources between matched tokens are akin. -/
structure Texts (r : Runs) (V : Views) : Prop where
  source : r.start.source = V.source
  source' : r.start'.source = V.source'
  closed : ∀ {t t' u u'}, r.Matched t t' → r.Inner u u' →
    V.AkinAt ⟨t.span.lo, u.span.hi⟩ ⟨t'.span.lo, u'.span.hi⟩
  joined : ∀ {t t' u u'}, r.Inner t t' → r.Inner u u' →
    V.AkinAt (t.span.join u.span) (t'.span.join u'.span)
  opened : ∀ {t t' u u'}, r.Matched t t' → r.Matched u u' → u.kind = .punct .openBrace →
    NearlyAkin (V.source.slice t.span.lo u.span.lo) (V.source'.slice t'.span.lo u'.span.lo)
  first : ∀ {t t' u u'}, r.Matched t t' → r.Inner u u' →
    (V.source'.slice t'.span.lo u'.span.hi).head? = (V.source.slice t.span.lo u.span.hi).head?
  named : ∀ {t t' u u'}, r.Inner t t' → r.Inner u u' → V.fits (t.span.join u.span) →
    V.fits' (t'.span.join u'.span) →
    V.source'.slice t'.span.lo u'.span.hi = V.source.slice t.span.lo u.span.hi

/-- The two offsets are where matched tokens start. -/
def Starts (r : Runs) (lo lo' : Nat) : Prop :=
  ∃ t t', r.Matched t t' ∧ lo = t.span.lo ∧ lo' = t'.span.lo

/-- Two parsers abreast start at places that belong together. -/
theorem Abreast.starts {r : Runs} {p p' : Parser} (h : r.Abreast p p') :
    r.Starts p.peek.span.lo p'.peek.span.lo := ⟨_, _, h.peek, rfl, rfl⟩

end Runs

/-! ## One run -/

/-- Only the first token of the tail `x` of the tokens `ts` starts at the offset `hole`. -/
structure Pin (x ts : List Token) (hole : Nat) : Prop where
  suffix : x <:+ ts
  unique : x ≠ [] → ∀ t us, t :: us <:+ ts → t.span.lo = hole → x = t :: us

/-- The parse is quiet, and either it has not come to the tail, or the body at the hole is among
those that it has noted. -/
structure Lives (x : List Token) (hole : Nat) (bodies : List Nat) (p : Parser) : Prop where
  quiet : Quiet p
  lives : x.length ≤ p.left ∨ hole ∈ bodies

section Lives

variable {x ts : List Token} {hole : Nat} {bodies more : List Nat} {p q : Parser}

/-- A token that starts at the hole is the first one of the tail. -/
theorem Pin.length_le (hp : Pin x ts hole) (hw : p.ahead <:+ ts) (h : Taken p q hole) :
    x.length ≤ p.left ∧ (x ≠ [] → q.left < x.length) := by
  obtain ⟨t, us, hsuffix, hlo, hle⟩ := h
  by_cases hx : x = []
  · subst hx
    exact ⟨Nat.zero_le _, fun h => absurd rfl h⟩
  · obtain rfl := hp.unique hx t us (hsuffix.trans hw) hlo
    exact ⟨hsuffix.length_le, fun _ => Nat.lt_succ_of_le hle⟩

/-- A parse lives only if it had not come to the tail before the bodies that it notes. -/
theorem Lives.keeps (hl : Lives x hole bodies q) (hp : Pin x ts hole) (hw : p.ahead <:+ ts)
    (hr : Reaches p q) (ht : ∀ o ∈ bodies, Taken p q o) : Keeps x p := by
  refine ⟨.of_reaches hr hl.quiet, ?_⟩
  rcases hl.lives with hle | hmem
  · exact Nat.le_trans hle (left_le_of_reaches hr)
  · exact (hp.length_le hw (ht hole hmem)).1

/-- Without bodies to avoid, living is keeping the tail. -/
theorem Lives.of_nil (hl : Lives x hole [] q) : Keeps x q :=
  ⟨hl.quiet, hl.lives.resolve_right List.not_mem_nil⟩

/-- Of what comes first something can be said as well: the bodies noted later are ahead. -/
theorem Lives.first (hl : Lives x hole (bodies ++ more) q) (hp : Pin x ts hole) (hw : p.ahead <:+ ts)
    (hr : Reaches p q) (ht : ∀ o ∈ more, Taken p q o) : Lives x hole bodies p := by
  refine ⟨.of_reaches hr hl.quiet, ?_⟩
  rcases hl.lives with hle | hmem
  · exact .inl (Nat.le_trans hle (left_le_of_reaches hr))
  · rcases List.mem_append.mp hmem with hmem | hmem
    · exact .inr hmem
    · exact .inl (hp.length_le hw (ht hole hmem)).1

/-- What lives further on lives on the way to it. -/
theorem Lives.before (hl : Lives x hole bodies q) (hr : Reaches p q) : Lives x hole bodies p :=
  ⟨.of_reaches hr hl.quiet, hl.lives.imp_left fun h => Nat.le_trans h (left_le_of_reaches hr)⟩

/-- A parse that has not come to the tail has noted no body there. -/
theorem Pin.not_mem (hp : Pin x ts hole) (hw : p.ahead <:+ ts) (ht : ∀ o ∈ bodies, Taken p q o)
    (hx : x ≠ []) (hle : x.length ≤ q.left) : hole ∉ bodies := fun hmem =>
  absurd hle (Nat.not_le.mpr ((hp.length_le hw (ht hole hmem)).2 hx))

/-- What comes later lives on its own. -/
theorem Lives.rest (hl : Lives x hole (bodies ++ more) q) (hp : Pin x ts hole) {r : Parser}
    (hw : r.ahead <:+ ts) (ht : ∀ o ∈ bodies, Taken r p o) (hle : x.length ≤ p.left) :
    Lives x hole more q := by
  refine ⟨hl.quiet, ?_⟩
  by_cases hx : x = []
  · subst hx
    exact .inl (Nat.zero_le _)
  · refine hl.lives.imp_right fun hmem => (List.mem_append.mp hmem).resolve_left ?_
    exact hp.not_mem hw ht hx hle

/-- A body that starts before the hole is not noted there. -/
theorem Lives.keeps_of_brace (hl : Lives x hole [p.peek.span.lo] q) (hp : Pin x ts hole)
    (hw : p.ahead <:+ ts) (hb : p.isPunct .openBrace = true) (hne : x ≠ [] → p.left ≠ x.length) :
    Keeps x q := by
  refine ⟨hl.quiet, ?_⟩
  by_cases hx : x = []
  · rw [hx]
    exact Nat.zero_le _
  · refine hl.lives.resolve_right fun hmem => hne hx ?_
    obtain ⟨t, us, hpa⟩ := exists_of_not_atEnd (atEnd_of_isPunct hb)
    rw [peek_of_ahead hpa, List.mem_singleton] at hmem
    rw [hp.unique hx t us (hpa ▸ hw) hmem.symm, ← hpa]
    rfl

end Lives

/-! ## Two runs -/

namespace Runs

/-- A body that differs: it starts with the first tokens of the tails, and behind it the parses are
two runs `after` with the same tails, none. -/
structure Hole (r : Runs) (V : Views) where
  hole : Nat
  hole' : Nat
  after : Runs
  pin : Pin r.tail r.start.ahead hole
  pin' : Pin r.tail' r.start'.ahead hole'
  texts : r.Texts V
  textsAfter : after.Texts V
  noTail : after.tail = []
  enters : r.tail ≠ [] → ∀ p p', r.Abreast p p' → p.left = r.tail.length →
    after.Abreast p.takeGroup p'.takeGroup

variable {r : Runs} {V : Views} {p p' q q' : Parser}

/-- Both runs have a tail, or neither has. -/
theorem tail'_eq_nil (h : r.tail = []) : r.tail' = [] := r.tails.nil_iff.mp h

/-- With no tail ahead nothing is pinned. -/
theorem pin_nil {ts : List Token} {hole : Nat} : Pin [] ts hole :=
  ⟨List.nil_suffix, fun h => absurd rfl h⟩

/-- Runs without tails have no body that differs. -/
def Hole.none (h : r.Texts V) (hx : r.tail = []) : Hole r V where
  hole := 0
  hole' := 0
  after := r
  pin := hx ▸ pin_nil
  pin' := tail'_eq_nil hx ▸ pin_nil
  texts := h
  textsAfter := h
  noTail := hx
  enters := fun hne => absurd hx hne

/-- The states are abreast before the hole or behind it. -/
def Along (H : Hole r V) (q q' : Parser) : Prop :=
  r.Abreast q q' ∨
    (q.left < r.tail.length ∧ q'.left < r.tail'.length ∧ H.after.Abreast q q')

theorem Abreast.suffix (h : r.Abreast p p') : p.ahead <:+ r.start.ahead := by
  obtain ⟨n, -, rfl, -⟩ := h.placed
  exact suffix_of_reaches (reaches_advance _ n)

theorem Abreast.suffix' (h : r.Abreast p p') : p'.ahead <:+ r.start'.ahead := by
  obtain ⟨n, -, -, rfl⟩ := h.placed
  exact suffix_of_reaches (reaches_advance _ n)

/-- Without tails, abreast is all there is. -/
theorem abreast_of_along (h : r.Texts V) (hx : r.tail = []) (ha : Along (Hole.none h hx) q q') :
    r.Abreast q q' := by
  rcases ha with ha | ⟨-, -, ha⟩
  · exact ha
  · exact ha

section Along

variable {H : Hole r V} {e e' : Parser} {bodies bodies' more more' : List Nat} {P : Prop}

/-- Both parses go on from states that are along the hole. Whether these are before it or behind it,
the rest is one of parses that are abreast. -/
theorem Along.andThen (ha : Along H q q') (h : r.Abreast p p')
    (ht : ∀ o ∈ bodies, Taken p q o) (ht' : ∀ o ∈ bodies', Taken p' q' o)
    (hr : Reaches q e) (hr' : Reaches q' e')
    (hl : Lives r.tail H.hole (bodies ++ more) e)
    (hl' : Lives r.tail' H.hole' (bodies' ++ more') e')
    (hrest : ∀ {s : Runs} (K : s.Hole V), s.Abreast q q' → Lives s.tail K.hole more e →
      Lives s.tail' K.hole' more' e' → P ∧ Along K e e') : P ∧ Along H e e' := by
  rcases ha with ha | ⟨hlt, hlt', ha⟩
  · exact hrest H ha (hl.rest H.pin h.suffix ht ha.keeps.tail)
      (hl'.rest H.pin' h.suffix' ht' ha.keeps'.tail)
  · -- behind the hole there is no tail to come to
    have hnil' := tail'_eq_nil H.noTail
    obtain ⟨hP, hafter⟩ := hrest (Hole.none H.textsAfter H.noTail) ha
      ⟨hl.quiet, .inl (by rw [H.noTail]; exact Nat.zero_le _)⟩
      ⟨hl'.quiet, .inl (by rw [hnil']; exact Nat.zero_le _)⟩
    exact ⟨hP, .inr ⟨Nat.lt_of_le_of_lt (left_le_of_reaches hr) hlt,
      Nat.lt_of_le_of_lt (left_le_of_reaches hr') hlt', abreast_of_along _ _ hafter⟩⟩

/-- Either both parses have taken a token or neither has. -/
theorem Along.left_iff (ha : Along H q q') (h : r.Abreast p p') :
    q'.left = p'.left ↔ q.left = p.left := by
  have hleft := h.left
  have hle := h.keeps.tail
  have hle' := h.keeps'.tail
  rcases ha with ha | ⟨hlt, hlt', -⟩
  · have := ha.left
    omega
  · omega

/-- The same where an item or member that took no token loses one. Either both parsers step over a
token or neither does, as they have taken as many. -/
theorem Along.andThenPast (ha : Along H q q') (h : r.Abreast p p')
    (ht : ∀ o ∈ bodies, Taken p q o) (ht' : ∀ o ∈ bodies', Taken p' q' o)
    (hr : Reaches (pastItem p q) e) (hr' : Reaches (pastItem p' q') e')
    (htaken : ∀ o ∈ more, Taken (pastItem p q) e o)
    (htaken' : ∀ o ∈ more', Taken (pastItem p' q') e' o)
    (hl : Lives r.tail H.hole (bodies ++ more) e)
    (hl' : Lives r.tail' H.hole' (bodies' ++ more') e')
    (hrest : ∀ {s : Runs} (K : s.Hole V), s.Abreast (pastItem p q) (pastItem p' q') →
      Lives s.tail K.hole more e → Lives s.tail' K.hole' more' e' → P ∧ Along K e e') :
    P ∧ Along H e e' := by
  have hiff := ha.left_iff h
  refine ha.andThen h ht ht' ((reaches_pastItem p q).trans hr)
    ((reaches_pastItem p' q').trans hr') hl hl' ?_
  intro s K hq hlives hlives'
  refine hrest K ?_ hlives hlives'
  have hk :=
    hlives.keeps K.pin ((suffix_of_reaches (reaches_pastItem p q)).trans hq.suffix) hr htaken
  have hk' := hlives'.keeps K.pin' ((suffix_of_reaches (reaches_pastItem p' q')).trans hq.suffix')
    hr' htaken'
  unfold pastItem at hk hk' ⊢
  by_cases hsame : q.left = p.left
  · rw [if_pos hsame] at hk ⊢
    rw [if_pos (hiff.mpr hsame)] at hk' ⊢
    exact inStep_bump q q' hq hk hk'
  · rw [if_neg hsame, if_neg fun h => hsame (hiff.mp h)]
    exact hq

/-- What both parses do in step leaves them along the hole. -/
theorem Along.inStep {f : Parser → Parser} (ha : Along H q q') (h : r.Abreast p p')
    (ht : ∀ o ∈ bodies, Taken p q o) (ht' : ∀ o ∈ bodies', Taken p' q' o)
    (hr : Reaches q (f q)) (hr' : Reaches q' (f q')) (hl : Lives r.tail H.hole bodies (f q))
    (hl' : Lives r.tail' H.hole' bodies' (f q')) (hf : ∀ s : Runs, s.InStep f q q') :
    Along H (f q) (f q') := by
  rw [← List.append_nil bodies] at hl
  rw [← List.append_nil bodies'] at hl'
  have hboth : True ∧ Along H (f q) (f q') := ha.andThen h ht ht' hr hr' hl hl'
    fun K hq hlives hlives' => ⟨trivial, .inl (hf _ hq hlives.of_nil hlives'.of_nil)⟩
  exact hboth.2

end Along

end Runs

end SignatureLedger
