import Telemetry.Proofs.Consumption

/-!
# One look after another

A caller shows a parser some window of the stream, and goes on behind what was consumed.  However
long the windows are, all that the looks can do is to go on along one path, or to wait: of any two
ways to look at a stream one goes on where the other has come to (`Looks.compare`), and parsing the
whole stream at once completes the same records (`Looks.parse_eq`).
-/

namespace Telemetry

namespace Record.Parser

section Waiting

variable {p p' : Parser} {window : Bytes} {offset ordinal : Nat}

theorem parser_of_needMore (h : p.decode window offset ordinal = .ok (.needMore, p')) : p' = p := by
  rw [decode_of_lt_wanted (length_lt_of_needMore h)] at h
  cases h
  rfl

theorem decideText_ne_lostSync {position : Nat} {tag tag' : UInt8} {rest : Bytes} :
    p.decideText tag rest offset ordinal ≠ .ok (.lostSync position tag', p') := by
  intro h
  unfold decideText at h
  simp only [bind, Except.bind, pure, Except.pure] at h
  repeat' split at h
  all_goals simp at h

theorem parser_of_lostSync {position : Nat} {tag : UInt8}
    (h : p.decode window offset ordinal = .ok (.lostSync position tag, p')) : p' = p := by
  rcases window with _ | ⟨first, rest⟩
  · cases h
  unfold decode at h
  dsimp only at h
  split at h
  · simp only [bind, Except.bind, pure, Except.pure] at h
    split at h <;> cases h
  · split at h
    · cases h
      rfl
    · split at h
      · simp only [pure, Except.pure, decideFixed] at h
        split at h <;> cases h
      · exact absurd h decideText_ne_lostSync

end Waiting

/-- Where repeated looks stand. -/
structure Site where
  parser : Parser
  /-- What comes after the bytes that have been consumed. -/
  rest : Bytes
  offset : Nat
  ordinal : Nat

namespace Site

/-- The records that a decision completes, and where the looks stand then. -/
def after (x : Site) : Decision → Parser → List Record × Site
  | .complete r n, p => ([r], ⟨p, x.rest.drop n, x.offset + n, x.ordinal + 1⟩)
  | .pending n, p => ([], ⟨p, x.rest.drop n, x.offset + n, x.ordinal⟩)
  | .needMore, p => ([], { x with parser := p })
  | .lostSync _ _, p => ([], { x with parser := p })

/-- A look at a window of any length completes the records, at most one, and leads to `y`. -/
def Look (x : Site) (rs : List Record) (y : Site) : Prop :=
  ∃ window d p, window <+: x.rest ∧
    x.parser.decode window x.offset x.ordinal = .ok (d, p) ∧ x.after d p = (rs, y)

/-- Some looks complete the records and lead to another site. -/
inductive Looks : Site → List Record → Site → Prop where
  | refl (x : Site) : Looks x [] x
  | cons {x y z : Site} {rs rs' : List Record} (h : x.Look rs y) (hs : Looks y rs' z) :
    Looks x (rs ++ rs') z

theorem Look.of_complete {p q : Parser} {rest : Bytes} {offset ordinal n : Nat} {r : Record}
    (hd : p.decode rest offset ordinal = .ok (.complete r n, q)) :
    Look ⟨p, rest, offset, ordinal⟩ [r] ⟨q, rest.drop n, offset + n, ordinal + 1⟩ :=
  ⟨rest, _, _, List.prefix_refl rest, hd, rfl⟩

theorem Look.of_pending {p q : Parser} {rest : Bytes} {offset ordinal n : Nat}
    (hd : p.decode rest offset ordinal = .ok (.pending n, q)) :
    Look ⟨p, rest, offset, ordinal⟩ [] ⟨q, rest.drop n, offset + n, ordinal⟩ :=
  ⟨rest, _, _, List.prefix_refl rest, hd, rfl⟩

/-- What a look at all that is left leads to. -/
def Settles (x : Site) (rs : List Record) (y : Site) : Prop :=
  ∃ d p, x.parser.decode x.rest x.offset x.ordinal = .ok (d, p) ∧ x.after d p = (rs, y)

variable {x y z : Site} {rs rs' : List Record}

theorem Settles.unique (h : x.Settles rs y) (h' : x.Settles rs' z) : rs = rs' ∧ y = z := by
  obtain ⟨d, p, hd, hafter⟩ := h
  obtain ⟨d', p', hd', hafter'⟩ := h'
  rw [hd] at hd'
  cases hd'
  rw [hafter] at hafter'
  exact Prod.mk.inj hafter'

/-- A look waits, or sees as much as a look at all that is left. -/
theorem Look.waits_or_settles (h : x.Look rs y) : rs = [] ∧ y = x ∨ x.Settles rs y := by
  obtain ⟨window, d, p, hwindow, hd, hafter⟩ := h
  rcases decode_of_prefix hwindow x.offset x.ordinal with hmore | hsame
  · rw [hd] at hmore
    cases hmore
    cases hafter
    exact .inl ⟨rfl, rfl⟩
  · exact .inr ⟨d, p, hsame.trans hd, hafter⟩

namespace Looks

theorem single (h : x.Look rs y) : x.Looks rs y := by
  have := Looks.cons h (.refl y)
  rwa [List.append_nil] at this

theorem trans (h : x.Looks rs y) (h' : y.Looks rs' z) : x.Looks (rs ++ rs') z := by
  induction h with
  | refl => exact h'
  | cons hlook _ ih =>
    rw [List.append_assoc]
    exact .cons hlook (ih h')

/-- Looks that go on at all go where a look at all that is left does. -/
theorem of_settles (h : x.Looks rs' z) (hx : x.Settles rs y) :
    rs' = [] ∧ z = x ∨ ∃ more, rs' = rs ++ more ∧ y.Looks more z := by
  induction h with
  | refl => exact .inl ⟨rfl, rfl⟩
  | cons hlook hs ih =>
    rcases hlook.waits_or_settles with ⟨rfl, rfl⟩ | hsettles
    · exact ih hx
    · obtain ⟨rfl, rfl⟩ := hx.unique hsettles
      exact .inr ⟨_, rfl, hs⟩

/-- Of two ways to look at a stream one goes on where the other has come to. -/
theorem compare (h : x.Looks rs y) (h' : x.Looks rs' z) :
    (∃ more, rs = rs' ++ more ∧ z.Looks more y) ∨ ∃ more, rs' = rs ++ more ∧ y.Looks more z := by
  induction h generalizing rs' with
  | refl => exact .inr ⟨rs', rfl, h'⟩
  | @cons x w y first later hlook hs ih =>
    rcases hlook.waits_or_settles with ⟨rfl, rfl⟩ | hsettles
    · exact ih h'
    · rcases h'.of_settles hsettles with ⟨rfl, rfl⟩ | ⟨more, rfl, hmore⟩
      · exact .inl ⟨_, rfl, .cons hlook hs⟩
      · rcases ih hmore with ⟨others, rfl, hothers⟩ | ⟨others, rfl, hothers⟩
        · exact .inl ⟨others, (List.append_assoc ..).symm, hothers⟩
        · exact .inr ⟨others, (List.append_assoc ..).symm, hothers⟩

end Looks

/-- What all that is left parses into. -/
def parse (x : Site) : Parse :=
  x.parser.parse none x.rest x.offset x.ordinal

theorem Settles.parse_eq (h : x.Settles rs y) :
    x.parse = { y.parse with records := rs ++ y.parse.records } := by
  obtain ⟨d, p, hd, hafter⟩ := h
  cases d with
  | complete r n =>
    cases hafter
    exact parse_of_complete rfl hd
  | pending n =>
    cases hafter
    exact parse_of_pending rfl hd
  | needMore =>
    obtain rfl := parser_of_needMore hd
    cases hafter
    rfl
  | lostSync position tag =>
    obtain rfl := parser_of_lostSync hd
    cases hafter
    rfl

/-- Looks complete the first of the records that all the bytes parse into. -/
theorem Looks.parse_eq (h : x.Looks rs y) :
    x.parse = { y.parse with records := rs ++ y.parse.records } := by
  induction h with
  | refl => rfl
  | cons hlook _ ih =>
    rcases hlook.waits_or_settles with ⟨rfl, rfl⟩ | hsettles
    · exact ih
    · rw [hsettles.parse_eq, ih, List.append_assoc]

end Site

end Record.Parser

end Telemetry
