import RazorTokens.Proofs.Transitions

/-!
This module shows that nested regions are tokenised exactly. A text that consists of brackets only,
each region closed by its own bracket and with white space where the scanner skips it, is played with
one token for each bracket, and behind it the same regions are open as before it.
-/

namespace RazorTokens

structure Blanks where
  text : List Char
  all_isBlank : text.all Alphabet.isBlank

theorem Blanks.isBlank_of_mem (blanks : Blanks) {c : Char} (h : c ∈ blanks.text)
    : Alphabet.isBlank c := by
  have := blanks.all_isBlank
  rw [List.all_eq_true] at this
  apply this
  exact h

theorem Blanks.span_append (blanks : Blanks) {c : Char} (hc : Alphabet.isBlank c = false)
    (rest : List Char)
    : (blanks.text ++ c :: rest).takeWhile Alphabet.isBlank = blanks.text
        ∧ (blanks.text ++ c :: rest).dropWhile Alphabet.isBlank = c :: rest := by
  rw [List.takeWhile_append_of_pos fun _ => blanks.isBlank_of_mem]
  rw [List.dropWhile_append_of_pos fun _ => blanks.isBlank_of_mem]
  simp [hc]

theorem Region.isBlank_closer (r : Region) : Alphabet.isBlank r.closer = false := by
  cases r <;> decide

inductive Stroke where
  | block
  | expression
  | brace (blanks : Blanks)
  | close (blanks : Blanks) (r : Region)

namespace Stroke

def kind : Stroke → Kind
  | block => .codeBlockStart
  | expression => .expressionStart
  | brace _ => .blockOpen
  | close _ _ => .regionClose

def blanks : Stroke → List Char
  | block => []
  | expression => []
  | brace blanks => blanks.text
  | close blanks _ => blanks.text

def bracket : Stroke → List Char
  | block => ['@', '{']
  | expression => ['@', '(']
  | brace _ => ['{']
  | close _ .brace => ['}']
  | close _ .paren => [')']

@[simp]
theorem bracket_close (blanks : Blanks) (r : Region) : (close blanks r).bracket = [r.closer] := by
  cases r <;> rfl

def text (k : Stroke) : List Char :=
  k.blanks ++ k.bracket

theorem text_ne_nil (k : Stroke) : k.text ≠ [] := by
  cases k with
  | close blanks r => simp [text]
  | _ => simp [text, bracket]

def depthAfter (depth : Nat) : Stroke → Nat
  | close _ _ => depth - 1
  | _ => depth + 1

def tokens (pos depth : Nat) : List Stroke → List Token
  | [] => []
  | k :: strokes =>
    ⟨k.kind.symbol, ⟨pos + byteSize k.blanks, pos + byteSize k.text⟩, k.depthAfter depth⟩
      :: tokens (pos + byteSize k.text) (k.depthAfter depth) strokes

/--
The bracket may stand where the first nesting is open, and leads to the second one. A bare brace
needs a region around it, and a closing bracket is that of the innermost region.
-/
inductive Leads : Stroke → Nesting → Nesting → Prop where
  | block (n : Nesting) : Leads block n (n.push .brace)
  | expression (n : Nesting) : Leads expression n (n.push .paren)
  | brace (blanks : Blanks) {n : Nesting}
    : n.isMarkup = false → Leads (brace blanks) n (n.push .brace)
  | close (blanks : Blanks) (r : Region) (n : Nesting) : Leads (close blanks r) (n.push r) n

theorem textIn?_tokens {source before rest : List Char} {strokes : List Stroke} (depth : Nat)
    (h : source = before ++ (strokes.flatMap text ++ rest))
    : (tokens (byteSize before) depth strokes).map (fun token => token.span.textIn? source)
        =
      strokes.map fun k => some k.bracket := by
  induction strokes generalizing before depth with
  | nil => rfl
  | cons k strokes ih =>
    have hfirst : source = (before ++ k.blanks)
        ++ (k.bracket ++ (strokes.flatMap text ++ rest)) := by
      simpa [text] using h
    have hlater : source = (before ++ k.text) ++ (strokes.flatMap text ++ rest) := by
      simpa using h
    have htext : Span.textIn?
          ⟨byteSize before + byteSize k.blanks, byteSize before + byteSize k.text⟩ source
        = some k.bracket := by
      have hspan := Span.textIn?_append (before ++ k.blanks) k.bracket (strokes.flatMap text ++ rest)
      rw [← hfirst] at hspan
      simpa [text, Nat.add_assoc] using hspan
    have hrest := ih (k.depthAfter depth) hlater
    rw [byteSize_append] at hrest
    rw [tokens, List.map_cons, List.map_cons, hrest, htext]

theorem Leads.depth_eq {k : Stroke} {n n' : Nesting} (h : k.Leads n n')
    : n'.depth = k.depthAfter n.depth := by
  cases h with
  | block => rfl
  | expression => rfl
  | brace => rfl
  | close => rfl

inductive LeadAll : Nesting → List Stroke → Nesting → Prop where
  | nil (n : Nesting) : LeadAll n [] n
  | cons {n n' n'' : Nesting} {k : Stroke} {strokes : List Stroke}
    : k.Leads n n' → LeadAll n' strokes n'' → LeadAll n (k :: strokes) n''

theorem LeadAll.append {n n' n'' : Nesting} {strokes later : List Stroke}
    (h : LeadAll n strokes n') (h' : LeadAll n' later n'')
    : LeadAll n (strokes ++ later) n'' := by
  induction h with
  | nil n => exact h'
  | cons hleads _ ih => exact .cons hleads (ih h')

end Stroke

inductive Opener : Bool → Type where
  | block {inside : Bool} : Opener inside
  | expression {inside : Bool} : Opener inside
  | brace (blanks : Blanks) : Opener true

namespace Opener

variable {inside : Bool}

def stroke : Opener inside → Stroke
  | block => .block
  | expression => .expression
  | brace blanks => .brace blanks

def region : Opener inside → Region
  | block => .brace
  | expression => .paren
  | brace _ => .brace

theorem leads (opener : Opener inside) {n : Nesting} (h : inside = true → n.isMarkup = false)
    : opener.stroke.Leads n (n.push opener.region) := by
  cases opener with
  | block => apply Stroke.Leads.block
  | expression => apply Stroke.Leads.expression
  | brace blanks =>
    apply Stroke.Leads.brace
    exact h rfl

end Opener

/--
A sequence of nested regions. White space may stand before each closing bracket and before each bare
brace, and there is no other text.
-/
inductive Word : Bool → Type where
  | nil {inside : Bool} : Word inside
  | region {inside : Bool} (opener : Opener inside) (body : Word true) (blanks : Blanks)
    (rest : Word inside) : Word inside

namespace Word

def text {inside : Bool} : Word inside → List Char
  | nil => []
  | region opener body blanks rest =>
    opener.stroke.text ++ (body.text ++ ((Stroke.close blanks opener.region).text ++ rest.text))

def strokes {inside : Bool} : Word inside → List Stroke
  | nil => []
  | region opener body blanks rest =>
    opener.stroke :: (body.strokes ++ .close blanks opener.region :: rest.strokes)

variable {inside : Bool}

theorem text_eq (w : Word inside) : w.text = w.strokes.flatMap Stroke.text := by
  induction w with
  | nil => rfl
  | region opener body blanks rest ihbody ihrest => simp [text, strokes, ihbody, ihrest]

theorem leadAll_strokes (w : Word inside) {n : Nesting} (h : inside = true → n.isMarkup = false)
    : Stroke.LeadAll n w.strokes n := by
  induction w generalizing n with
  | nil => apply Stroke.LeadAll.nil
  | region opener body blanks rest ihbody ihrest =>
    have hbody := ihbody (n := n.push opener.region) (fun _ => rfl)
    apply Stroke.LeadAll.cons (opener.leads h)
    apply hbody.append
    apply Stroke.LeadAll.cons (.close blanks opener.region n)
    exact ihrest h

end Word

namespace Plan

def brackets : Plan where
  markup := .ofSymbols
    [Kind.textWithAt.symbol, Kind.markupText.symbol, Kind.codeBlockStart.symbol,
      Kind.expressionStart.symbol]
  code := .ofSymbols
    [Kind.codeBlockStart.symbol, Kind.expressionStart.symbol, Kind.blockOpen.symbol,
      Kind.regionClose.symbol, Kind.comment.symbol, Kind.directive.symbol]

def tableAt (plan : Plan) (n : Nesting) : Admissible :=
  if n.isMarkup then plan.markup else plan.code

theorem openedBy?_brace (n : Nesting)
    : Rule.openedBy? (brackets.tableAt n) '{' = some (.codeBlockStart, .brace) := by
  unfold tableAt
  split <;> decide

theorem openedBy?_paren (n : Nesting)
    : Rule.openedBy? (brackets.tableAt n) '(' = some (.expressionStart, .paren) := by
  unfold tableAt
  split <;> decide

theorem allows_transition : ∀ kind ∈ Kind.transitions, brackets.code.allows kind := by
  decide

theorem tableAt_of_code {n : Nesting} (h : n.isMarkup = false) (plan : Plan)
    : plan.tableAt n = plan.code := by
  unfold tableAt
  simp [h]

end Plan

namespace Stroke

variable {k : Stroke} {n n' : Nesting} {rest : List Char}

theorem Leads.transition (h : k.Leads n n') (rest : List Char)
    : Transition n (k.text ++ rest) k.kind k.blanks k.bracket n' := by
  cases h with
  | block => exact .block ⟨rest, rfl⟩
  | expression => exact .expression ⟨rest, rfl⟩
  | brace blanks _ =>
    rcases blanks.span_append (c := '{') (by decide) rest with ⟨htake, hdrop⟩
    have hbrace := Transition.brace (n := n) ⟨rest, hdrop.symm⟩
    rw [htake] at hbrace
    rw [text, List.append_assoc]
    exact hbrace
  | close blanks r =>
    rcases blanks.span_append r.isBlank_closer rest with ⟨htake, hdrop⟩
    have hclose := Transition.close (n := n'.push r) rfl ⟨rest, hdrop.symm⟩
    rw [htake] at hclose
    rw [text, List.append_assoc, bracket_close]
    exact hclose

theorem Leads.template_eq {cur : Cursor} (h : k.Leads n n') (hahead : cur.ahead = k.text ++ rest)
    : Rule.template (Plan.brackets.tableAt n) ⟨cur.restart, n⟩
        =
      .emit k.kind ⟨⟨cur.source, rest, cur.ahead, k.bracket ++ rest, none⟩, n'⟩ := by
  have htransition := h.transition rest
  rw [← hahead] at htransition
  have hbehind : cur.ahead = k.blanks ++ (k.bracket ++ rest) := by
    rw [hahead, text, List.append_assoc]
  have hcode (hn : n.isMarkup = false)
      : Rule.template (Plan.brackets.tableAt n) ⟨cur.restart, n⟩
          = .emit k.kind ⟨⟨cur.source, rest, cur.ahead, k.bracket ++ rest, none⟩, n'⟩ := by
    have hopen : n ≠ ∅ := Nesting.isMarkup_eq_false_iff.mp hn
    have hallowed := Plan.allows_transition k.kind htransition.mem_transitions
    rw [Plan.tableAt_of_code hn]
    exact Transition.template_eq (p := ⟨cur.restart, n⟩) (.inl hopen) htransition hallowed rfl hbehind
  cases h with
  | block =>
    have hat : Place.ahead ⟨cur.restart, n⟩ = '@' :: '{' :: rest := hahead
    have hstart : cur.ahead = bracket .block ++ rest := hahead
    rw [Rule.template_of_opening hat (Plan.openedBy?_brace n), ← hstart]
    rfl
  | expression =>
    have hat : Place.ahead ⟨cur.restart, n⟩ = '@' :: '(' :: rest := hahead
    have hstart : cur.ahead = bracket .expression ++ rest := hahead
    rw [Rule.template_of_opening hat (Plan.openedBy?_paren n), ← hstart]
    rfl
  | brace blanks hn => exact hcode hn
  | close blanks r => exact hcode rfl

end Stroke

namespace Session

variable {σ : Type}

structure Stands (s : Session σ) (sc : Scanner σ) (source rest : List Char) : Prop where
  scanner_eq : s.scanner = sc
  source_eq : s.cursor.source = source
  ahead_eq : s.cursor.ahead = rest

def behind (s : Session σ) (n : Nesting) (rest : List Char) : Session σ :=
  ⟨⟨s.scanner.embedded, n⟩, (s.cursor.moveTo rest).restart⟩

variable {s : Session σ} {k : Stroke} {n : Nesting} {rest : List Char}

@[simp]
theorem scanner_behind : (s.behind n rest).scanner = ⟨s.scanner.embedded, n⟩ := rfl

@[simp]
theorem source_behind : (s.behind n rest).cursor.source = s.cursor.source := rfl

@[simp]
theorem ahead_behind : (s.behind n rest).cursor.ahead = rest := rfl

theorem inText_behind {text : List Char} (hs : s.cursor.InText) (h : s.cursor.ahead = text ++ rest)
    : (s.behind n rest).cursor.InText := by
  unfold Cursor.InText at hs
  rw [h] at hs
  exact (List.suffix_append text rest).trans hs

theorem pos_behind {text : List Char} (hs : s.cursor.InText) (h : s.cursor.ahead = text ++ rest)
    : (s.behind n rest).cursor.pos = s.cursor.pos + byteSize text := by
  rcases hs with ⟨before, hsource⟩
  have hpos : s.cursor.pos = byteSize before := Cursor.offset_of_append hsource
  have hbehind : s.cursor.offset rest = byteSize (before ++ text) := by
    apply Cursor.offset_of_append
    simpa [h] using hsource
  rw [hpos, ← byteSize_append, ← hbehind]
  rfl

variable [Embedded σ]

def rounds (s : Session σ) (plan : Plan) : Nat → List (Option Token) × Session σ
  | 0 => ([], s)
  | count + 1 =>
    let (token?, after, _) := s.round plan
    let (tokens, last) := after.rounds plan count
    (token? :: tokens, last)

theorem round_of_token {s after : Session σ} {plan : Plan} {symbol : Symbol} {span : Span}
    {reach : Nat} {log : List Event} (hplan : plan.reloading = false)
    (h : s.call (plan.tableAt s.scanner.nesting) = (.token symbol span reach, after, log))
    : s.round plan = (some ⟨symbol, span, after.scanner.nesting.depth⟩, after, log) := by
  have htable : (if s.scanner.isInCode then plan.code else plan.markup)
      = plan.tableAt s.scanner.nesting := by
    unfold Scanner.isInCode Plan.tableAt
    cases s.scanner.nesting.isMarkup <;> rfl
  unfold round
  simp [hplan, htable, h]

theorem round_of_leads (hs : s.cursor.InText) (hleads : k.Leads s.scanner.nesting n)
    (hahead : s.cursor.ahead = k.text ++ rest)
    : s.round .brackets
        =
      (some ⟨k.kind.symbol, ⟨s.cursor.pos + byteSize k.blanks, s.cursor.pos + byteSize k.text⟩,
          k.depthAfter s.scanner.nesting.depth⟩,
        s.behind n rest, [.committed k.kind n.depth]) := by
  have hspan : Cursor.tokenSpan ⟨s.cursor.source, rest, s.cursor.ahead, k.bracket ++ rest, none⟩
      = ⟨s.cursor.pos + byteSize k.blanks, s.cursor.pos + byteSize k.text⟩ := by
    have hbehind : s.cursor.ahead = k.blanks ++ (k.bracket ++ rest) := by
      rw [hahead, Stroke.text, List.append_assoc]
    rw [Stroke.text, byteSize_append, ← Nat.add_assoc]
    exact Cursor.tokenSpan_of_skipped hs hbehind
  rw [round_of_token rfl (call_of_emit (hleads.template_eq hahead)), hspan, hleads.depth_eq]
  rfl

theorem rounds_of_leadAll {strokes : List Stroke} (hs : s.cursor.InText)
    (hlead : Stroke.LeadAll s.scanner.nesting strokes n)
    (hahead : s.cursor.ahead = strokes.flatMap Stroke.text ++ rest)
    : ∃ last, s.rounds .brackets strokes.length
          = ((Stroke.tokens s.cursor.pos s.scanner.nesting.depth strokes).map some, last)
        ∧ last.Stands ⟨s.scanner.embedded, n⟩ s.cursor.source rest := by
  induction strokes generalizing s with
  | nil =>
    cases hlead
    exact ⟨s, rfl, rfl, rfl, hahead⟩
  | cons k strokes ih =>
    cases hlead with
    | @cons _ n' _ _ _ hleads hlater =>
      have hk : s.cursor.ahead = k.text ++ (strokes.flatMap Stroke.text ++ rest) := by
        simpa using hahead
      have hround := round_of_leads hs hleads hk
      have hdepth : n'.depth = k.depthAfter s.scanner.nesting.depth := hleads.depth_eq
      rcases ih (inText_behind hs hk) hlater rfl with ⟨last, hrounds, hlast⟩
      refine ⟨last, ?_, hlast⟩
      simp only [scanner_behind, pos_behind hs hk, hdepth] at hrounds
      simp only [List.length_cons, rounds, hround, hrounds, Stroke.tokens, List.map_cons]

theorem play_of_round_at_end {after : Session σ} {plan : Plan} {token? : Option Token}
    {log : List Event} (h : s.round plan = (token?, after, log)) (hend : after.cursor.atEnd)
    : s.play plan = (token?.toList, after, log) := by
  rw [play]
  simp [h, hend]

theorem play_of_round_onward {after : Session σ} {plan : Plan} {token? : Option Token}
    {log : List Event} (h : s.round plan = (token?, after, log)) (hend : after.cursor.atEnd = false)
    (hahead : after.cursor.ahead.length < s.cursor.ahead.length)
    (hpos : after.cursor.pos ≠ s.cursor.pos)
    : s.play plan
        =
      (token?.toList ++ (after.play plan).1, (after.play plan).2.1,
        log ++ (after.play plan).2.2) := by
  have honward : s.onward after = after := by
    unfold onward
    rw [if_neg hpos]
  rw [play]
  simp [h, hend, honward, hahead]

theorem play_of_leadAll {strokes : List Stroke} (hs : s.cursor.InText) (hne : strokes ≠ [])
    (hlead : Stroke.LeadAll s.scanner.nesting strokes n)
    (hahead : s.cursor.ahead = strokes.flatMap Stroke.text)
    : (s.play .brackets).1 = Stroke.tokens s.cursor.pos s.scanner.nesting.depth strokes
        ∧ (s.play .brackets).2.1.Stands ⟨s.scanner.embedded, n⟩ s.cursor.source [] := by
  induction strokes generalizing s with
  | nil => contradiction
  | cons k strokes ih =>
    cases hlead with
    | @cons _ n' _ _ _ hleads hlater =>
      have hk : s.cursor.ahead = k.text ++ strokes.flatMap Stroke.text := by
        simpa using hahead
      have hround := round_of_leads hs hleads hk
      have hdepth : n'.depth = k.depthAfter s.scanner.nesting.depth := hleads.depth_eq
      cases strokes with
      | nil =>
        cases hlater
        rw [play_of_round_at_end hround rfl]
        exact ⟨rfl, rfl, rfl, rfl⟩
      | cons k' strokes =>
        have hplay := ih (inText_behind hs hk) (by simp) hlater rfl
        simp only [scanner_behind, source_behind, pos_behind hs hk, hdepth] at hplay
        have hpos := byteSize_pos k.text_ne_nil
        have hlength := List.length_pos_iff.mpr k.text_ne_nil
        rw [play_of_round_onward hround]
        · refine ⟨?_, hplay.2⟩
          rw [hplay.1, Stroke.tokens]
          rfl
        · simp [Cursor.atEnd, k'.text_ne_nil]
        · simp only [ahead_behind, hk, List.length_append]
          omega
        · rw [pos_behind hs hk]
          omega

/--
Nested regions are tokenised exactly. Wherever a word of brackets begins, and whatever follows it,
each call commits to the next bracket, with a span that covers the bracket alone, and behind the word
the scanner is what it was before. If nothing follows the word, then these are all tokens of the
document.
-/
theorem tokens_of_word (s : Session σ) (w : Word s.scanner.isInCode) (rest : List Char)
    (hs : s.cursor.InText) (hahead : s.cursor.ahead = w.text ++ rest)
    : let tokens := Stroke.tokens s.cursor.pos s.scanner.nesting.depth w.strokes
      (∃ last, s.rounds .brackets w.strokes.length = (tokens.map some, last)
          ∧ last.Stands s.scanner s.cursor.source rest)
        ∧ tokens.map (fun token => s.cursor.textOf? token.span)
            = w.strokes.map (fun k => some k.bracket)
        ∧ (rest = [] → w.strokes ≠ [] →
            (s.play .brackets).1 = tokens
              ∧ (s.play .brackets).2.1.Stands s.scanner s.cursor.source []) := by
  intro tokens
  have hinside : s.scanner.isInCode = true → s.scanner.nesting.isMarkup = false := by
    simp [Scanner.isInCode]
  have hlead := w.leadAll_strokes hinside
  rw [w.text_eq] at hahead
  refine ⟨?_, ?_, ?_⟩
  · exact rounds_of_leadAll hs hlead hahead
  · rcases hs with ⟨before, hsource⟩
    have hpos : s.cursor.pos = byteSize before := Cursor.offset_of_append hsource
    rw [hahead] at hsource
    dsimp only [tokens]
    rw [hpos]
    exact Stroke.textIn?_tokens _ hsource.symm
  · intro hrest hne
    rw [hrest, List.append_nil] at hahead
    exact play_of_leadAll hs hne hlead hahead

theorem tokens_of_word_in_paren
    : let tight : Blanks := ⟨[], rfl⟩
      let wide : Blanks := ⟨['\u3000', '\n'], rfl⟩
      let w : Word true := .region (.brace wide) (.region .block .nil wide .nil) tight
        (.region .expression .nil tight .nil)
      let s : Session CodeState := ⟨⟨{}, ⟨[.paren]⟩⟩, (Cursor.ofText ('é' :: w.text)).next⟩
      w.text = ['\u3000', '\n', '{', '@', '{', '\u3000', '\n', '}', '}', '@', '(', ')']
        ∧ s.cursor.InText
        ∧ s.cursor.ahead = w.text ++ []
        ∧ (s.play .brackets).1
            = [⟨Kind.blockOpen.symbol, ⟨6, 7⟩, 2⟩, ⟨Kind.codeBlockStart.symbol, ⟨7, 9⟩, 3⟩,
                ⟨Kind.regionClose.symbol, ⟨13, 14⟩, 2⟩, ⟨Kind.regionClose.symbol, ⟨14, 15⟩, 1⟩,
                ⟨Kind.expressionStart.symbol, ⟨15, 17⟩, 2⟩,
                ⟨Kind.regionClose.symbol, ⟨17, 18⟩, 1⟩] := by
  intro tight wide w s
  have hs : s.cursor.InText := ⟨['é'], rfl⟩
  have hahead : s.cursor.ahead = w.text ++ [] := rfl
  have hplay := (tokens_of_word s w [] hs hahead).2.2 rfl (by simp [w, Word.strokes])
  refine ⟨rfl, hs, hahead, ?_⟩
  rw [hplay.1]
  decide +kernel

end Session
end RazorTokens
