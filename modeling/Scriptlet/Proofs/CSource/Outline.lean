import Scriptlet.Proofs.C.Outline
import Scriptlet.Proofs.CSource.Tokens

/-!
The events of C code. The text of a program is read back as the events of its code, whatever
the names in it are.
-/
namespace Scriptlet.CSource

open C C.Token

def Code.used : Code → List String
  | .var id => [id]
  | .arith _ l r => l.used ++ r.used
  | .compare _ l r => l.used ++ r.used
  | .choose c y n => c.used ++ y.used ++ n.used
  | _ => []

mutual

def Code.events : Code → List Event
  | .main body => Code.eventsAll body
  | .print v => v.used.map .uses
  | .set declares id v => v.used.map .uses ++ [.sets declares id]
  | .branch chain => chain.events
  | .loop counter turns body => .loops counter turns :: Event.block (Code.eventsAll body)
  | c => c.used.map .uses

def Code.eventsAll : List Code → List Event
  | [] => []
  | c :: cs => c.events ++ Code.eventsAll cs

def Chain.events : Chain → List Event
  | .mk test body others last =>
    test.used.map .uses ++ (Event.block (Code.eventsAll body) ++
      (Chain.eventsAll others ++
        if last.isEmpty then [] else Event.block (Code.eventsAll last)))

def Chain.eventsAll : List Chain → List Event
  | [] => []
  | c :: cs => c.events ++ Chain.eventsAll cs

end

/-- The tokens are an expression that uses the variables, whatever it stands in. -/
def Uses (ts : List C.Token) (ids : List String) : Prop :=
  ∀ inside c rest, inside ≠ .loopHead → isSeparator c = true →
    C.events inside false (ts ++ .mark c :: rest) =
      ids.map .uses ++ C.events inside false (.mark c :: rest)

/-- Two expressions with a mark between them. -/
theorem Uses.followed {ts us : List C.Token} {ids ids' : List String} {c : Char}
    (h : Uses ts ids) (hc : isSeparator c = true) (hplain : c ∉ ['\x7b', '\x7d', ';'])
    (hus : Uses us ids') :
    Uses (ts ++ .mark c :: us) (ids ++ ids') := by
  intro inside c' rest hinside hc'
  rw [List.append_assoc, List.cons_append, h inside c _ hinside hc,
    events_mark hinside false _ hplain, hus inside c' rest hinside hc', List.map_append,
    List.append_assoc]

theorem Uses.inParens {ts : List C.Token} {ids : List String} (h : Uses ts ids) (needed : Bool) :
    Uses (inParens needed ts) ids := by
  cases needed with
  | false => exact h
  | true =>
    intro inside c rest hinside hc
    rw [CSource.inParens, if_pos rfl, List.cons_append, events_mark hinside false _ (by simp),
      List.append_assoc, List.singleton_append, h inside ')' _ hinside (by decide),
      events_mark hinside false _ (by simp)]

theorem operator_isSeparator {m : Mark} (h : m.isOperator = true) :
    isSeparator m.char = true ∧ m.char ∉ ['\x7b', '\x7d', ';'] := by
  revert h
  cases m <;> decide

/-- The tokens of arithmetic use its variables, in order; so do those of tests and values. -/
theorem Code.IsSum.uses : {c : Code} → c.IsSum IsWord → Uses c.tokens c.used
  | .number n, _ => by
    intro inside c rest hinside hc
    rw [Code.tokens]
    split
    · simp [events_mark hinside, events_number hinside, Code.used]
    · simp [events_number hinside, Code.used]
  | .var id, _ => fun inside c rest hinside hc => events_variable hinside false rest id hc
  | .arith op l r, h => by
    obtain ⟨hseparates, hplain⟩ := operator_isSeparator op.isOperator_mark
    exact ((IsSum.uses h.1).inParens _).followed hseparates hplain ((IsSum.uses h.2).inParens _)

theorem Code.IsTest.uses {c : Code} (h : c.IsTest IsWord) : Uses c.tokens c.used := by
  cases c with
  | compare op l r =>
    obtain ⟨hseparates, hplain⟩ := operator_isSeparator op.isOperator_mark
    exact h.1.uses.followed hseparates hplain h.2.uses
  | _ => exact IsSum.uses h

theorem Code.IsValue.uses {c : Code} (h : c.IsValue IsWord) : Uses c.tokens c.used := by
  cases c with
  | choose c y n =>
    have hchoices := h.2.1.uses.followed (c := ':') (by decide) (by decide) h.2.2.uses
    have hall := h.1.uses.followed (c := '?') (by decide) (by decide) hchoices
    simpa [Code.tokens, Code.used] using hall
  | _ => exact IsSum.uses h

theorem events_inBraces {ts : List C.Token} {es : List Event}
    (h : ∀ rest, C.events .statement false (ts ++ rest) = es ++ C.events .statement false rest)
    (rest : List C.Token) : C.events .statement false (inBraces ts ++ rest) =
      Event.block es ++ C.events .statement false rest := by
  rw [inBraces, List.cons_append, events_opens, List.append_assoc, List.singleton_append, h,
    events_closes]
  simp [Event.block]

/-- The value of an assignment, its end and what follows. -/
theorem events_setting {v : Code} (h : v.IsValue IsWord) (declares : Bool) (id : String)
    (rest : List C.Token) :
    C.events (.setting declares id) false (v.tokens ++ .mark ';' :: rest) =
      v.used.map .uses ++ .sets declares id :: C.events .statement false rest := by
  rw [h.uses _ ';' rest (by simp) (by decide), events_semicolon (by simp)]
  rfl

mutual

/-- The tokens of a statement are read as its events, whatever follows. -/
theorem Code.IsStatement.events_eq : {c : Code} → c.IsStatement IsWord →
    (rest : List C.Token) →
    C.events .statement false (c.tokens ++ rest) = c.events ++ C.events .statement false rest
  | .printNumber n, _, rest => by
    simp [Code.tokens, Code.events, Code.used, events_call, events_text, events_mark,
      events_semicolon, Inside.ended]
  | .print v, h, rest => by
    have hvalue := Code.IsSum.uses h .statement ')' (.mark ';' :: rest) (by simp) (by decide)
    simp [Code.tokens, Code.events, events_call, events_text, events_mark, hvalue,
      events_semicolon, Inside.ended]
  | .set declares id v, h, rest => by
    have hvalue := events_setting h.2 declares id rest
    cases declares <;>
      simp [Code.tokens, Code.events, events_type, events_set, hvalue]
  | .branch chain, h, rest => Chain.IsChain.events_eq h false rest
  | .loop counter turns body, h, rest => by
    have hbody := events_inBraces (Code.AllStatements.events_eq h.2) rest
    rw [Code.tokens, List.append_assoc, events_for, hbody]
    simp [Code.events]

theorem Code.AllStatements.events_eq : {cs : List Code} → Code.AllStatements IsWord cs →
    (rest : List C.Token) → C.events .statement false (Code.tokensAll cs ++ rest) =
      Code.eventsAll cs ++ C.events .statement false rest
  | [], _, _ => rfl
  | _ :: _, h, rest => by
    rw [Code.tokensAll, List.append_assoc, Code.IsStatement.events_eq h.1,
      Code.AllStatements.events_eq h.2, Code.eventsAll, List.append_assoc]

theorem Chain.IsChain.events_eq : {c : Chain} → c.IsChain IsWord → (typed : Bool) →
    (rest : List C.Token) → C.events .statement typed (c.tokens ++ rest) =
      c.events ++ C.events .statement false rest
  | .mk test body others last, h, typed, rest => by
    have hlast : C.events .statement false ((if last.isEmpty then [] else
        .word "else" :: inBraces (Code.tokensAll last)) ++ rest) =
        (if last.isEmpty then [] else Event.block (Code.eventsAll last)) ++
          C.events .statement false rest := by
      cases last with
      | nil => rfl
      | cons c cs =>
        have hblock := events_inBraces (Code.AllStatements.events_eq h.2.2.2) rest
        simpa [inBraces, events_opens, events_else] using hblock
    have hothers := Chain.AllElifs.events_eq h.2.2.1 ((if last.isEmpty then [] else
      .word "else" :: inBraces (Code.tokensAll last)) ++ rest)
    have hbody := events_inBraces (Code.AllStatements.events_eq h.2.1)
    simp only [Chain.tokens, List.cons_append, List.append_assoc]
    rw [events_call _ _ _ (by decide), h.1.uses _ ')' _ (by simp) (by decide),
      events_mark (by simp) _ _ (by simp), hbody, hothers, hlast]
    simp [Chain.events]

theorem Chain.AllElifs.events_eq : {cs : List Chain} → Chain.AllElifs IsWord cs →
    (rest : List C.Token) → C.events .statement false (Chain.elseTokens cs ++ rest) =
      Chain.eventsAll cs ++ C.events .statement false rest
  | [], _, _ => rfl
  | .mk test body others last :: cs, h, rest => by
    have hshape : (Chain.mk test body others last).IsChain IsWord := by
      obtain ⟨⟨htest, hbody, rfl, rfl⟩, _⟩ := h
      exact ⟨htest, hbody, trivial, trivial⟩
    have hchain := Chain.IsChain.events_eq hshape true (Chain.elseTokens cs ++ rest)
    rw [Chain.elseTokens, List.cons_append, List.append_assoc]
    have helse : C.events .statement false (.word "else" ::
        ((Chain.mk test body others last).tokens ++ (Chain.elseTokens cs ++ rest))) =
        C.events .statement true
          ((Chain.mk test body others last).tokens ++ (Chain.elseTokens cs ++ rest)) :=
      events_type false _ "else" "if"
    rw [helse, hchain, Chain.AllElifs.events_eq h.2, Chain.eventsAll, List.append_assoc]

end

/-- The text of a program is read as the events of its code. -/
theorem outline_main {body : List Code} (h : Code.AllStatements IsWord body) (step : Nat) :
    C.outline ((Code.main body).text step 0) = some (Code.eventsAll body) := by
  have hevents := h.events_eq []
  rw [outline_eq (scan_main h step)]
  simpa [C.events] using hevents

end Scriptlet.CSource
