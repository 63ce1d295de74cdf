import RazorTokens.Embedded.CodeState
import RazorTokens.Proofs.Call
import RazorTokens.Proofs.Contract

/-!
This module relates the nesting of a scanner to the tokens that it has produced. The open regions are
exactly those that the tokens have opened and not closed, and the brackets among the tokens always
form the beginning of a balanced word.
-/

namespace RazorTokens

inductive Bracket where
  | opening (r : Region)
  | closing (r : Region)
  deriving DecidableEq, Repr

inductive Balanced : List Bracket → Prop where
  | nil : Balanced []
  | enclose {w : List Bracket} (r : Region)
    : Balanced w → Balanced (.opening r :: (w ++ [.closing r]))
  | append {w w' : List Bracket} : Balanced w → Balanced w' → Balanced (w ++ w')

namespace Balanced

theorem insert {word w before after : List Bracket} (h : Balanced word) (hw : Balanced w)
    (hword : word = before ++ after)
    : Balanced (before ++ (w ++ after)) := by
  -- The new word goes in at any place of the old one, so the place has to vary in the induction.
  induction h generalizing before after with
  | nil =>
    rcases List.nil_eq_append_iff.mp hword with ⟨rfl, rfl⟩
    rw [List.nil_append, List.append_nil]
    exact hw
  | @enclose inner r hinner ih =>
    cases before with
    | nil =>
      rw [List.nil_append] at hword ⊢
      rw [← hword]
      exact hw.append (hinner.enclose r)
    | cons b before =>
      rw [List.cons_append] at hword
      injection hword with hb hword
      subst hb
      rcases List.append_eq_append_iff.mp hword with ⟨rest, rfl, hrest⟩ | ⟨rest, rfl, rfl⟩
      · rcases List.singleton_eq_append_iff.mp hrest with ⟨rfl, rfl⟩ | ⟨rfl, rfl⟩
        · rw [List.append_nil, List.cons_append, ← List.append_assoc]
          exact (hinner.append hw).enclose r
        · rw [List.append_nil]
          exact (hinner.enclose r).append hw
      · have := (ih rfl).enclose r
        simpa using this
  | @append first second hfirst hsecond ihfirst ihsecond =>
    rcases List.append_eq_append_iff.mp hword with ⟨rest, rfl, rfl⟩ | ⟨rest, rfl, rfl⟩
    · rw [List.append_assoc]
      exact hfirst.append (ihsecond rfl)
    · have := (ihfirst rfl).append hsecond
      simpa using this

theorem pair (r : Region) : Balanced [.opening r, .closing r] :=
  nil.enclose r

end Balanced

namespace Nesting

/--
The nesting behind a token of the given kind. There is none if the token closes a region where no
region is open.
-/
def after? (n : Nesting) : Kind → Option Nesting
  | .codeBlockStart => some (n.push .brace)
  | .blockOpen => some (n.push .brace)
  | .expressionStart => some (n.push .paren)
  | .regionClose =>
    match n.regions with
    | [] => none
    | _ :: outer => some ⟨outer⟩
  | _ => some n

def follow? (n : Nesting) (symbol : Symbol) : Option Nesting :=
  match Kind.ofSymbol? symbol with
  | some kind => n.after? kind
  | none => some n

theorem eq_push_of_close? {n : Nesting} {c : Char} {closed : Region × Nesting}
    (h : n.close? c = some closed)
    : n = closed.2.push closed.1 ∧ closed.1.closer = c := by
  unfold close? at h
  split at h
  · contradiction
  · next r outer hregions =>
    split at h
    · next hcloser =>
      cases h
      exact ⟨Nesting.ext hregions, hcloser⟩
    · contradiction

end Nesting

structure Lexeme where
  symbol : Symbol
  text? : Option (List Char)
  deriving DecidableEq, Repr

structure Visit where
  cursor : Cursor
  adm : Admissible
  inText : cursor.InText

namespace Place

/--
Where some region is open, nothing lies between the start of the token and the cursor.
-/
def AtStart (p : Place) : Prop :=
  p.nesting.isMarkup = false → p.cursor.start = p.cursor.ahead ∧ p.cursor.marked = none

theorem atStart_of_isMarkup {p : Place} (h : p.nesting.isMarkup) : p.AtStart := by
  intro hcode
  rw [h] at hcode
  contradiction

theorem AtStart.skipBlanks {p : Place} (h : p.AtStart) : p.skipBlanks.AtStart := by
  intro hcode
  unfold Place.skipBlanks Cursor.skipBlanks
  split
  · exact ⟨rfl, (h hcode).2⟩
  · exact h hcode

end Place

/--
The verdict changes the nesting of the place that the rule was asked at as its token says. The token
that closes a region is the bracket that closes it.
-/
def Verdict.Tracks (p : Place) : Verdict → Prop
  | .emit kind q => p.nesting.after? kind = some q.nesting
      ∧ (kind = .regionClose →
          ∃ r, p.nesting = q.nesting.push r ∧ [r.closer] ++ q.cursor.tokenRest = q.cursor.start)
  | .refuse _ q => q.nesting = p.nesting
  | .pass q => q.nesting = p.nesting ∧ q.AtStart

theorem Verdict.tracks_emit {p q : Place} {kind : Kind}
    (hafter : p.nesting.after? kind = some q.nesting) (hkind : kind ≠ .regionClose)
    : (Verdict.emit kind q).Tracks p :=
  ⟨hafter, fun hclose => absurd hclose hkind⟩

namespace Rule

def Tracks (r : Rule) : Prop :=
  ∀ p : Place, p.AtStart → (r p).Tracks p

def tracking : Contract where
  relies := Place.AtStart
  ensures p verdict := verdict.Tracks p
  ensures_pass hp := ⟨rfl, hp⟩
  relies_of_pass _ hpass := hpass.2
  ensures_trans := by
    intro p q verdict hpass hverdict
    rcases hpass with ⟨hnesting, _⟩
    unfold Verdict.Tracks at hverdict ⊢
    rw [hnesting] at hverdict
    exact hverdict

theorem tracks_address (p : Place) (hmarkup : p.nesting.isMarkup) : (address p).Tracks p := by
  unfold address
  dsimp only
  split
  · exact Verdict.tracks_emit rfl nofun
  · exact ⟨rfl, Place.atStart_of_isMarkup hmarkup⟩

theorem tracks_prose (p : Place) (hmarkup : p.nesting.isMarkup) : (prose p).Tracks p := by
  unfold prose
  dsimp only
  split
  · split
    · rfl
    · exact Verdict.tracks_emit rfl nofun
  · split
    · exact ⟨rfl, Place.atStart_of_isMarkup hmarkup⟩
    · exact Verdict.tracks_emit rfl nofun

theorem after?_of_opening? {adm : Admissible} {s rest : List Char} {kind : Kind} {region : Region}
    (n : Nesting) (h : opening? adm s = some (kind, region, rest))
    : n.after? kind = some (n.push region) ∧ kind ≠ .regionClose := by
  unfold opening? at h
  split at h
  · split at h <;> cases h
    exact ⟨rfl, by decide⟩
  · split at h <;> cases h
    exact ⟨rfl, by decide⟩
  · contradiction

theorem tracks_regionStart (adm : Admissible) : Tracks (regionStart adm) := by
  intro p hp
  unfold regionStart
  split
  · split
    · split
      · next hopening =>
        rcases after?_of_opening? p.nesting hopening with ⟨hafter, hkind⟩
        exact Verdict.tracks_emit hafter hkind
      · rfl
    · exact ⟨rfl, hp⟩
  · exact ⟨rfl, hp⟩

theorem tracks_blockOpen : Tracks blockOpen := by
  intro p hp
  unfold blockOpen
  dsimp only
  split
  · exact Verdict.tracks_emit rfl nofun
  · exact ⟨rfl, hp.skipBlanks⟩

theorem tracks_regionClose : Tracks regionClose := by
  intro p hp
  cases hahead : p.skipBlanks.ahead with
  | nil =>
    rw [regionClose_of_nil hahead]
    exact ⟨rfl, hp.skipBlanks⟩
  | cons c rest =>
    rw [regionClose_of_cons hahead]
    cases hclose : p.nesting.close? c with
    | none => exact ⟨rfl, hp.skipBlanks⟩
    | some closed =>
      rcases Nesting.eq_push_of_close? hclose with ⟨hnesting, rfl⟩
      have hcode : p.nesting.isMarkup = false := by
        rw [hnesting]
        rfl
      -- Only blanks have been passed so far, and the token starts behind them.
      rcases hp.skipBlanks hcode with ⟨hstart, hmarked⟩
      refine ⟨?_, fun _ => ⟨closed.1, hnesting, ?_⟩⟩
      · rw [hnesting]
        rfl
      · unfold Cursor.tokenRest
        dsimp only [Place.moveTo, Cursor.moveTo]
        rw [hstart, hmarked]
        exact hahead.symm

theorem tracks_comment : Tracks comment := by
  intro p hp
  unfold comment
  split
  · exact Verdict.tracks_emit rfl nofun
  · exact Verdict.tracks_emit rfl nofun
  · rfl
  · exact ⟨rfl, hp⟩

theorem tracks_directive : Tracks directive := by
  intro p hp
  unfold directive
  split
  · exact Verdict.tracks_emit rfl nofun
  · exact ⟨rfl, hp⟩

theorem tracks_verbatim (e : RawElement) : Tracks (verbatim e) := by
  intro p hp
  unfold verbatim
  split
  · rfl
  · rfl
  · split
    · exact Verdict.tracks_emit rfl nofun
    · exact Verdict.tracks_emit rfl nofun

theorem tracks_template (adm : Admissible) : Tracks (template adm) := by
  apply tracking.meets_template
  · exact fun p _ hmarkup _ => tracks_address p hmarkup
  · exact fun p _ hmarkup _ => tracks_prose p hmarkup
  · exact tracks_regionStart adm
  · exact fun p hp _ => tracks_blockOpen p hp
  · exact fun p hp _ _ => tracks_regionClose p hp
  · exact fun p hp _ _ => tracks_comment p hp
  · exact fun p hp _ _ => tracks_directive p hp
  · exact fun e p hp _ => tracks_verbatim e p hp

end Rule

namespace Region

def ofCloser? (c : Char) : Option Region :=
  if c = brace.closer then some brace
  else if c = paren.closer then some paren
  else none

theorem ofCloser?_closer (r : Region) : ofCloser? r.closer = some r := by
  cases r <;> rfl

end Region

namespace Lexeme

/--
The bracket that the token contributes. An opening bracket is known by the symbol of the token, and a
closing one by its text.
-/
def bracket? (lexeme : Lexeme) : Option Bracket :=
  match Kind.ofSymbol? lexeme.symbol with
  | some .codeBlockStart => some (.opening .brace)
  | some .blockOpen => some (.opening .brace)
  | some .expressionStart => some (.opening .paren)
  | some .regionClose =>
    match lexeme.text? with
    | some [c] => (Region.ofCloser? c).map .closing
    | _ => none
  | _ => none

/--
The token leads from one nesting to the other. If it closes a region, then its text is the bracket
that closes this region.
-/
structure Leads (lexeme : Lexeme) (n n' : Nesting) : Prop where
  follow : n.follow? lexeme.symbol = some n'
  closes : Kind.ofSymbol? lexeme.symbol = some .regionClose →
    ∃ r, n = n'.push r ∧ lexeme.text? = some [r.closer]

variable {lexeme : Lexeme} {n n' : Nesting}

theorem Leads.cases (h : lexeme.Leads n n')
    : (∃ r, n' = n.push r ∧ lexeme.bracket? = some (.opening r))
        ∨ (∃ r, n = n'.push r ∧ lexeme.bracket? = some (.closing r))
        ∨ (n' = n ∧ lexeme.bracket? = none) := by
  rcases h with ⟨hfollow, hcloses⟩
  unfold Nesting.follow? at hfollow
  unfold bracket?
  split at hfollow
  · next kind hkind =>
    rw [hkind]
    cases kind with
    | codeBlockStart =>
      cases hfollow
      exact .inl ⟨.brace, rfl, rfl⟩
    | blockOpen =>
      cases hfollow
      exact .inl ⟨.brace, rfl, rfl⟩
    | expressionStart =>
      cases hfollow
      exact .inl ⟨.paren, rfl, rfl⟩
    | regionClose =>
      rcases hcloses hkind with ⟨r, hn, htext⟩
      refine .inr (.inl ⟨r, hn, ?_⟩)
      dsimp only
      rw [htext]
      dsimp only
      rw [Region.ofCloser?_closer]
      rfl
    | _ =>
      cases hfollow
      exact .inr (.inr ⟨rfl, rfl⟩)
  · next hkind =>
    rw [hkind]
    cases hfollow
    exact .inr (.inr ⟨rfl, rfl⟩)

theorem Leads.balanced {word : List Bracket} (h : lexeme.Leads n n')
    (hword : Balanced (word ++ n.regions.map .closing))
    : Balanced (word ++ (lexeme.bracket?.toList ++ n'.regions.map .closing)) := by
  -- What is still to be closed behind the token differs by its bracket from what was before it.
  rcases h.cases with ⟨r, rfl, hbracket⟩ | ⟨r, rfl, hbracket⟩ | ⟨rfl, hbracket⟩
  · rw [hbracket]
    have hpair := hword.insert (.pair r) rfl
    exact hpair
  · rw [hbracket]
    exact hword
  · rw [hbracket]
    exact hword

theorem leads_of_emit {v : Visit} {n : Nesting} {kind : Kind} {p : Place}
    (htracks : (Verdict.emit kind p).Tracks ⟨v.cursor.restart, n⟩)
    (honward : v.cursor.restart.Onward p.cursor)
    : Leads ⟨kind.symbol, v.cursor.textOf? p.cursor.tokenSpan⟩ n p.nesting where
  follow := by
    unfold Nesting.follow?
    rw [Kind.ofSymbol?_symbol]
    exact htracks.1
  closes := by
    intro hkind
    rw [Kind.ofSymbol?_symbol] at hkind
    cases hkind
    rcases htracks.2 rfl with ⟨r, hnesting, htext⟩
    refine ⟨r, hnesting, ?_⟩
    have hordered := honward.ordered (Cursor.ordered_restart v.inText)
    have hsource : v.cursor.source = p.cursor.source := honward.source_eq.symm
    unfold Cursor.textOf?
    rw [hsource]
    exact hordered.textOf?_tokenSpan htext

theorem leads_of_isEmbedded {symbol : Symbol} (h : symbol.isEmbedded) (n : Nesting)
    (text? : Option (List Char))
    : Leads ⟨symbol, text?⟩ n n := by
  have hkind : Kind.ofSymbol? symbol = none := by
    unfold Kind.ofSymbol?
    rw [if_pos h]
  constructor
  · unfold Nesting.follow?
    rw [hkind]
  · intro hclose
    rw [hkind] at hclose
    contradiction

end Lexeme

inductive Replays : Nesting → List Lexeme → Nesting → Prop where
  | nil (n : Nesting) : Replays n [] n
  | cons {n n' n'' : Nesting} {lexeme : Lexeme} {lexemes : List Lexeme}
    : lexeme.Leads n n' → Replays n' lexemes n'' → Replays n (lexeme :: lexemes) n''

def Nesting.followAll? (n : Nesting) (symbols : List Symbol) : Option Nesting :=
  symbols.foldlM follow? n

namespace Replays

variable {n n' : Nesting} {lexemes : List Lexeme}

theorem followAll? (h : Replays n lexemes n')
    : n.followAll? (lexemes.map Lexeme.symbol) = some n' := by
  induction h with
  | nil n => rfl
  | cons hleads _ ih =>
    unfold Nesting.followAll?
    rw [List.map_cons, List.foldlM_cons, hleads.follow]
    exact ih

theorem exists_of_append {earlier later : List Lexeme} (h : Replays n (earlier ++ later) n')
    : ∃ m, Replays n earlier m ∧ Replays m later n' := by
  induction earlier generalizing n with
  | nil => exact ⟨n, .nil n, h⟩
  | cons lexeme earlier ih =>
    cases h with
    | cons hleads hrest =>
      rcases ih hrest with ⟨m, hearlier, hlater⟩
      exact ⟨m, .cons hleads hearlier, hlater⟩

theorem append {n'' : Nesting} {later : List Lexeme} (h : Replays n lexemes n')
    (h' : Replays n' later n'')
    : Replays n (lexemes ++ later) n'' := by
  induction h with
  | nil n => exact h'
  | cons hleads _ ih => exact .cons hleads (ih h')

theorem exists_closing {earlier later : List Lexeme} {lexeme : Lexeme}
    (h : Replays n (earlier ++ lexeme :: later) n')
    (hkind : Kind.ofSymbol? lexeme.symbol = some .regionClose)
    : ∃ r outer, n.followAll? (earlier.map Lexeme.symbol) = some ⟨r :: outer⟩
        ∧ lexeme.text? = some [r.closer] := by
  rcases h.exists_of_append with ⟨m, hearlier, hlater⟩
  cases hlater with
  | @cons _ m' _ _ _ hleads _ =>
    rcases hleads.closes hkind with ⟨r, rfl, htext⟩
    exact ⟨r, m'.regions, hearlier.followAll?, htext⟩

theorem balanced {word : List Bracket} (h : Replays n lexemes n')
    (hword : Balanced (word ++ n.regions.map .closing))
    : Balanced (word ++ (lexemes.filterMap Lexeme.bracket? ++ n'.regions.map .closing)) := by
  -- The induction moves the bracket of each token into the word in front.
  induction h generalizing word with
  | nil n => exact hword
  | @cons n n' n'' lexeme lexemes hleads _ ih =>
    have hstep := hleads.balanced hword
    rw [← List.append_assoc] at hstep
    have hrest := ih hstep
    have hbrackets : (lexeme :: lexemes).filterMap Lexeme.bracket?
        = lexeme.bracket?.toList ++ lexemes.filterMap Lexeme.bracket? := by
      rw [List.filterMap_cons]
      cases lexeme.bracket? <;> rfl
    rw [hbrackets]
    simpa using hrest

end Replays

def Embedded.KeepsToOwnSymbols (σ : Type) [Embedded σ] : Prop :=
  ∀ (e : σ) (adm : Admissible) (cur : Cursor) (symbol : Symbol),
    (Embedded.scan e adm cur).1 = .commit symbol → symbol.isEmbedded

namespace Scanner

variable {σ : Type} [Embedded σ]

def visit (sc : Scanner σ) (v : Visit) : Option Lexeme × Scanner σ :=
  match Session.call ⟨sc, v.cursor⟩ v.adm with
  | (.token symbol span _, after, _) => (some ⟨symbol, v.cursor.textOf? span⟩, after.scanner)
  | (.declined _, after, _) => (none, after.scanner)

def run (sc : Scanner σ) : List Visit → List Lexeme × Scanner σ
  | [] => ([], sc)
  | v :: visits =>
    let (lexeme?, sc) := sc.visit v
    let (lexemes, sc) := sc.run visits
    (lexeme?.toList ++ lexemes, sc)

variable (sc : Scanner σ)

theorem visit_eq (v : Visit)
    : sc.visit v
        =
      ((sc.scan v.adm v.cursor.restart).outcome.symbol?.map fun symbol =>
          ⟨symbol, v.cursor.textOf? (sc.scan v.adm v.cursor.restart).cursor.tokenSpan⟩,
        (sc.scan v.adm v.cursor.restart).scanner) := by
  unfold visit Session.call
  dsimp only
  cases (sc.scan v.adm v.cursor.restart).outcome with
  | commit symbol => rfl
  | decline => rfl

theorem replays_visit (hembedded : Embedded.KeepsToOwnSymbols σ) (v : Visit)
    : Replays sc.nesting (sc.visit v).1.toList (sc.visit v).2.nesting := by
  have htracks := Rule.tracks_template v.adm ⟨v.cursor.restart, sc.nesting⟩ (fun _ => ⟨rfl, rfl⟩)
  have honward := Rule.advances_template v.adm ⟨v.cursor.restart, sc.nesting⟩
  rw [visit_eq]
  cases hverdict : Rule.template v.adm ⟨v.cursor.restart, sc.nesting⟩ with
  | emit kind p =>
    rw [hverdict] at htracks honward
    rw [scan_of_emit hverdict]
    exact .cons (Lexeme.leads_of_emit htracks honward) (.nil _)
  | refuse why p =>
    rw [hverdict] at htracks
    have hnesting : p.nesting = sc.nesting := htracks
    rw [scan_of_refuse hverdict, hnesting]
    exact .nil _
  | pass p =>
    rw [hverdict] at htracks
    have hnesting : p.nesting = sc.nesting := htracks.1
    rw [scan_of_pass hverdict, hnesting]
    cases houtcome : (Embedded.scan sc.embedded v.adm p.cursor).1 with
    | commit symbol =>
      have hsymbol := hembedded _ _ _ _ houtcome
      exact .cons (Lexeme.leads_of_isEmbedded hsymbol _ _) (.nil _)
    | decline => exact .nil _

theorem replays_run (hembedded : Embedded.KeepsToOwnSymbols σ) (visits : List Visit)
    : Replays sc.nesting (sc.run visits).1 (sc.run visits).2.nesting := by
  induction visits generalizing sc with
  | nil => exact .nil _
  | cons v visits ih => exact (sc.replays_visit hembedded v).append (ih _)

/--
The open regions of a scanner are exactly those that its tokens have opened and not closed. Where a
token closes a region, some region is open, and the text of the token is the bracket that closes the
innermost one. So the brackets among the tokens are the beginning of a balanced word, and the open
regions tell how it can be completed.
-/
theorem run_nesting_eq_replay (hembedded : Embedded.KeepsToOwnSymbols σ) (e : σ)
    (visits : List Visit)
    : let (lexemes, sc) := (⟨e, ∅⟩ : Scanner σ).run visits
      Nesting.followAll? ∅ (lexemes.map Lexeme.symbol) = some sc.nesting
        ∧ (∀ earlier lexeme later, lexemes = earlier ++ lexeme :: later →
            Kind.ofSymbol? lexeme.symbol = some .regionClose →
            ∃ r outer, Nesting.followAll? ∅ (earlier.map Lexeme.symbol) = some ⟨r :: outer⟩
              ∧ lexeme.text? = some [r.closer])
        ∧ Balanced (lexemes.filterMap Lexeme.bracket? ++ sc.nesting.regions.map .closing) := by
  have hreplay := (⟨e, ∅⟩ : Scanner σ).replays_run hembedded visits
  refine ⟨hreplay.followAll?, ?_, ?_⟩
  · intro earlier lexeme later hlexemes hkind
    rw [hlexemes] at hreplay
    exact hreplay.exists_closing hkind
  · have hbalanced : Balanced ([] ++ (∅ : Nesting).regions.map .closing) := .nil
    exact hreplay.balanced hbalanced

theorem run_nesting_eq_replay_of_paren_in_brace
    : let adm := Admissible.ofSymbols
        [Kind.codeBlockStart.symbol, Kind.expressionStart.symbol, Kind.regionClose.symbol]
      let visits : List Visit :=
        [⟨(Cursor.ofText ['é', '@', '{']).next, adm, ⟨['é'], rfl⟩⟩,
          ⟨Cursor.ofText ['@', '('], adm, ⟨[], rfl⟩⟩,
          ⟨Cursor.ofText ['}'], adm, ⟨[], rfl⟩⟩,
          ⟨Cursor.ofText [' ', ')', '}'], adm, ⟨[], rfl⟩⟩]
      let lexemes : List Lexeme :=
        [⟨Kind.codeBlockStart.symbol, some ['@', '{']⟩,
          ⟨Kind.expressionStart.symbol, some ['@', '(']⟩, ⟨Kind.regionClose.symbol, some [')']⟩]
      (⟨{}, ∅⟩ : Scanner CodeState).run visits = (lexemes, ⟨{}, ⟨[.brace]⟩⟩)
        ∧ Nesting.followAll? ∅ (lexemes.map Lexeme.symbol) = some ⟨[.brace]⟩
        ∧ Balanced (lexemes.filterMap Lexeme.bracket? ++ [.closing .brace]) := by
  intro adm visits lexemes
  have hembedded : Embedded.KeepsToOwnSymbols CodeState := by
    intro e adm cur symbol hcommit
    cases hcommit
  have hrun : (⟨{}, ∅⟩ : Scanner CodeState).run visits = (lexemes, ⟨{}, ⟨[.brace]⟩⟩) := by
    decide +kernel
  have hreplay := run_nesting_eq_replay hembedded {} visits
  rw [hrun] at hreplay
  rcases hreplay with ⟨hfollow, _, hbalanced⟩
  exact ⟨hrun, hfollow, hbalanced⟩

end Scanner
end RazorTokens
