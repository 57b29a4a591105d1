import GrammarEngine.Proofs.Scanner.Transcript

/-!
# A stream of tokens with a place in it

A scanner that is asked for tokens may be given one back, and may be made to go on with another
file. Seen from outside there is one stream of tokens and a place in it. A token that is delivered
is passed, one that is given back is ahead again, and an included file puts its tokens in at the
place, with a mark behind them where something is noted.

The tokens of a file are those that a reader makes of its text, so each has a position there.

Main results:

* `Source.sound_of_consumed` — a text that a scanner reads to its end consists of the tokens
  that it delivers.
* `Feed.stream_of_act` — what an act makes of the stream.
* `AllDrawn.act` — every token is one of a file that was read.
-/

namespace GrammarEngine

namespace Scanner

open Lexicon (Place Piece Reads)

-- ---------------------------------------------------------------------------
-- Sources
-- ---------------------------------------------------------------------------

/-- A file or a labelled text, with the tokens that it consists of. -/
structure Source where
  name : String
  text : List Char
  tokens : List Token

/-- A source without macro calls that can be read to its end. -/
structure Source.Sound (lexicon : Lexicon) (mode : Mode) (source : Source) : Prop where
  noCalls : NoCalls source.text
  reads : ∃ pieces place, Reads lexicon source.name (.beginning source.text mode) pieces place ∧
    place.after = [] ∧ source.tokens = pieces.filterMap Piece.token

/-- A token of a source, with its position there. -/
def Source.Bears (source : Source) (token : Token) : Prop :=
  token ∈ source.tokens ∧
    ∃ place : Place, place.before ++ place.after = source.text ∧
    token.position = some (place.position source.name)

theorem Source.Sound.bears {lexicon : Lexicon} {mode : Mode} {source : Source}
    (h : source.Sound lexicon mode)
    {token : Token} (htoken : token ∈ source.tokens) : source.Bears token := by
  obtain ⟨pieces, place, hreads, -, htokens⟩ := h.reads
  refine ⟨htoken, ?_⟩
  rw [htokens] at htoken
  exact hreads.position htoken

section Consumed

variable {t₀ t : Scanner} {n : Nat}

/-- The tokens up to the end of the input, if there are fewer than `n`, each within some rounds. -/
def consumed? (rounds : Nat) : Nat → Scanner → Option (List Token)
  | 0, _ => none
  | n + 1, t =>
    match (next rounds).run t with
    | ⟨.ok token, t', _⟩ =>
      if t'.ended.isSome then some [] else (consumed? rounds n t').map (token :: ·)
    | ⟨.error _, _, _⟩ => none

theorem HasRead.consumed {rounds : Nat} {pieces : List Piece} {place : Place} {tokens : List Token}
    (hmodal : t₀.lexicon.Modal) (hcalls : NoCalls t₀.master.toList)
    (hread : HasRead t₀ t pieces place)
    (hended : t.ended = none) (h : consumed? rounds n t = some tokens) : ∃ pieces' place',
      Reads t₀.lexicon t₀.label (.beginning t₀.master.toList t₀.defaultMode) pieces' place' ∧
      place'.after = [] ∧
        pieces.filterMap Piece.token ++ tokens = pieces'.filterMap Piece.token := by
  induction n generalizing t pieces place tokens with
  | zero => cases h
  | succ n ih =>
    unfold consumed? at h
    split at h
    · next token t' trace hrun =>
      obtain ⟨pieces', place', hread', ⟨htokens, hended'⟩ |
          ⟨htokens, hafter, position, -, hended'⟩⟩ :=
        hread.next hmodal hcalls hended ⟨trace, hrun⟩
      · rw [hended', Option.isSome_none, if_neg Bool.false_ne_true] at h
        obtain ⟨more, hmore, rfl⟩ := Option.map_eq_some_iff.mp h
        obtain ⟨all, last, hreads, hend, hall⟩ := ih hread' hended' hmore
        refine ⟨all, last, hreads, hend, ?_⟩
        rw [← hall, htokens, List.append_assoc, List.singleton_append]
      · rw [hended', Option.isSome_some, if_pos rfl] at h
        obtain rfl := Option.some.inj h
        exact ⟨pieces', place', hread'.reads, hafter, by rw [htokens, List.append_nil]⟩
    · cases h

/-- **A text that a scanner reads to its end** is sound, with the tokens that the
scanner delivers. -/
theorem Source.sound_of_consumed {rounds : Nat} {tokens : List Token} (hmodal : t₀.lexicon.Modal)
    (hcalls : NoCalls t₀.master.toList) (hstart : (start true).Returns t₀ () t)
    (h : consumed? rounds n t = some tokens) :
    Source.Sound t₀.lexicon t₀.defaultMode ⟨t₀.label, t₀.master.toList, tokens⟩ := by
  obtain ⟨hread, hended⟩ := hasRead_opened hstart
  obtain ⟨pieces, place, hreads, hend, htokens⟩ := hread.consumed hmodal hcalls hended h
  exact ⟨hcalls, pieces, place, hreads, hend, htokens⟩

end Consumed

-- ---------------------------------------------------------------------------
-- The stream
-- ---------------------------------------------------------------------------

/-- What is ahead in a stream: a token, or the end of an included file with the labels that
are noted there. -/
inductive Item where
  | token (token : Token)
  | ending (labels : List String)

/-- The stream: what was delivered, net of what was given back, and what is ahead. -/
structure Feed where
  past : List Token
  ahead : List Item

/-- What happens to a scanner that is used. -/
inductive Act where
  /-- A token was delivered, and these labels were noted meanwhile. -/
  | delivered (token : Token) (labels : List String)
  /-- A token was given back. -/
  | returned (token : Token)
  /-- A file was included, with the labels that are to be noted at its end. -/
  | included (source : Source) (labels : List String)

/-- The labels of the files that end in front of the next token, the innermost file first, and what
is ahead then. -/
def passed : List Item → List String × List Item
  | .ending labels :: rest => (labels ++ (passed rest).1, (passed rest).2)
  | items => ([], items)

namespace Feed

/-- The place in front of the tokens of a source. -/
def opened (source : Source) : Feed := ⟨[], source.tokens.map .token⟩

/-- What counts as delivered once a token was given back. -/
def without (token : Token) (past : List Token) : List Token :=
  if past.getLast? = some token then past.dropLast else past

/-- An act in a stream, if it is possible: only the token ahead can be delivered, and the ends of
the files in front of it are passed on the way. An included file is put in front of all that is
ahead, also of a token that was given back. -/
def act (feed : Feed) : Act → Option Feed
  | .delivered token labels =>
    match passed feed.ahead with
    | (ended, .token next :: rest) =>
      if next = token ∧ ended = labels then some ⟨feed.past ++ [token], rest⟩ else none
    | _ => none
  | .returned token =>
    some ⟨without token feed.past, .token token :: feed.ahead⟩
  | .included source labels =>
    some { feed with ahead := source.tokens.map .token ++ .ending labels :: feed.ahead }

/-- The tokens of a list of items. -/
def tokens : List Item → List Token
  | [] => []
  | .token token :: rest => token :: tokens rest
  | .ending _ :: rest => tokens rest

/-- All tokens of the stream. -/
def stream (feed : Feed) : List Token := feed.past ++ tokens feed.ahead

theorem tokens_append (items more : List Item) :
    tokens (items ++ more) = tokens items ++ tokens more := by
  induction items with
  | nil => rfl
  | cons item items ih => cases item <;> simp [tokens, ih]

theorem tokens_map (source : List Token) : tokens (source.map .token) = source := by
  induction source with
  | nil => rfl
  | cons token source ih => simp [tokens, ih]

theorem tokens_passed (items : List Item) : tokens (passed items).2 = tokens items := by
  fun_induction passed items with
  | case1 labels rest ih => exact ih
  | case2 => rfl

/-- The token ahead is delivered, with the labels of the files that end in front of it. -/
theorem act_delivered {feed feed' : Feed} {token : Token} {labels : List String}
    (h : feed.act (.delivered token labels) = some feed') :
    ∃ rest, passed feed.ahead = (labels, .token token :: rest) ∧
      feed' = ⟨feed.past ++ [token], rest⟩ := by
  unfold act at h
  dsimp only at h
  split at h
  · next ended next rest hpassed =>
    split at h
    · next hsame =>
      obtain ⟨rfl, rfl⟩ := hsame
      exact ⟨rest, hpassed, (Option.some.inj h).symm⟩
    · cases h
  · cases h

/-- **What an act makes of the stream**: delivering a token or giving back the last one moves the
place only, and an included file puts its tokens in at the place. -/
theorem stream_of_act {feed feed' : Feed} {a : Act} (h : feed.act a = some feed') :
    match a with
    | .delivered .. => feed'.stream = feed.stream
    | .returned token => feed.past.getLast? = some token → feed'.stream = feed.stream
    | .included source _ =>
      feed'.past = feed.past ∧ feed'.stream = feed.past ++ source.tokens ++ tokens feed.ahead := by
  cases a with
  | delivered token labels =>
    obtain ⟨rest, hpassed, rfl⟩ := act_delivered h
    have htokens := tokens_passed feed.ahead
    rw [hpassed] at htokens
    dsimp only [stream]
    rw [← htokens, tokens, List.append_assoc]
    rfl
  | returned token =>
    intro hlast
    obtain rfl := Option.some.inj h
    dsimp only [stream]
    rw [without, if_pos hlast, tokens]
    obtain ⟨front, hpast⟩ := List.getLast?_eq_some_iff.mp hlast
    rw [hpast, List.dropLast_concat, List.append_assoc]
    rfl
  | included source labels =>
    obtain rfl := Option.some.inj h
    refine ⟨rfl, ?_⟩
    dsimp only [stream]
    rw [tokens_append, tokens_map, tokens, List.append_assoc]

end Feed

theorem passed_token (token : Token) (rest : List Item) :
    passed (.token token :: rest) = ([], .token token :: rest) :=
  rfl

theorem passed_ending (labels : List String) (rest : List Item) :
    passed (.ending labels :: rest) = (labels ++ (passed rest).1, (passed rest).2) := rfl

theorem mem_of_mem_passed {item : Item} {items : List Item}
    (h : item ∈ (passed items).2) : item ∈ items := by
  fun_induction passed items with
  | case1 labels rest ih => exact List.mem_cons_of_mem _ (ih h)
  | case2 => exact h

-- ---------------------------------------------------------------------------
-- Acts one after the other
-- ---------------------------------------------------------------------------

/-- The token of a delivery. -/
def Act.delivered? : Act → Option Token
  | .delivered token _ => some token
  | _ => none

/-- The labels that were noted meanwhile. -/
def Act.noted : Act → List String
  | .delivered _ labels => labels
  | .returned _ | .included .. => []

/-- The file that was included. -/
def Act.source? : Act → Option Source
  | .included source _ => some source
  | _ => none

variable {main : Source} {acts : List Act}

/-- A stream after one more act. -/
theorem foldlM_snoc {a : Act} {start feed' : Feed} :
    (acts ++ [a]).foldlM Feed.act start = some feed' ↔
    ∃ feed, acts.foldlM Feed.act start = some feed ∧ feed.act a = some feed' := by
  simp [List.foldlM_append, Option.bind_eq_some_iff]

/-- A token of the main input, or of a file that was included. -/
def Drawn (main : Source) (acts : List Act) (token : Token) : Prop :=
  ∃ source ∈ main :: acts.filterMap Act.source?, source.Bears token

theorem Drawn.later {token : Token} (h : Drawn main acts token) (a : Act) :
    Drawn main (acts ++ [a]) token := by
  obtain ⟨source, hsource, hbears⟩ := h
  refine ⟨source, ?_, hbears⟩
  rw [List.filterMap_append]
  exact List.mem_append_left _ hsource

theorem drawn_included {source : Source} {token : Token} (h : source.Bears token)
    (labels : List String) : Drawn main (acts ++ [.included source labels]) token := by
  refine ⟨source, ?_, h⟩
  rw [List.filterMap_append]
  exact List.mem_cons_of_mem _ (List.mem_append_right _ (List.mem_singleton.mpr rfl))

/-- The tokens that were delivered, and those ahead, are all drawn from the files. -/
structure AllDrawn (main : Source) (acts : List Act) (feed : Feed) : Prop where
  delivered : ∀ token labels, .delivered token labels ∈ acts → Drawn main acts token
  ahead : ∀ token, .token token ∈ feed.ahead → Drawn main acts token

/-- No act brings in a token that is not drawn from a file, if only tokens are given back that
were delivered. -/
theorem AllDrawn.act {feed feed' : Feed} {a : Act}
    (h : AllDrawn main acts feed) (hact : feed.act a = some feed')
    (hreturned : ∀ token, a = .returned token → ∃ labels, .delivered token labels ∈ acts)
    (hincluded : ∀ source labels, a = .included source labels →
      ∀ token ∈ source.tokens, source.Bears token) :
    AllDrawn main (acts ++ [a]) feed' := by
  have hbefore (token : Token) (labels : List String) (hacts : .delivered token labels ∈ acts) :
      Drawn main (acts ++ [a]) token := (h.delivered token labels hacts).later a
  cases a with
  | delivered new labels =>
    obtain ⟨rest, hpassed, rfl⟩ := Feed.act_delivered hact
    have hahead (token : Token) (htoken : .token token ∈ Item.token new :: rest) :
        Drawn main (acts ++ [.delivered new labels]) token := by
      refine (h.ahead token (mem_of_mem_passed ?_)).later _
      rw [hpassed]
      exact htoken
    refine ⟨fun token labels' hacts => ?_, fun token htoken =>
      hahead token (List.mem_cons_of_mem _ htoken)⟩
    rcases List.mem_append.mp hacts with hacts | hacts
    · exact hbefore token labels' hacts
    · obtain ⟨rfl, -⟩ := Act.delivered.inj (List.mem_singleton.mp hacts)
      exact hahead token List.mem_cons_self
  | returned back =>
    obtain rfl := Option.some.inj hact
    refine ⟨fun token labels hacts => ?_, fun token htoken => ?_⟩
    · rcases List.mem_append.mp hacts with hacts | hacts
      · exact hbefore token labels hacts
      · cases List.mem_singleton.mp hacts
    · rcases List.mem_cons.mp htoken with heq | htoken
      · obtain rfl := Item.token.inj heq
        obtain ⟨labels, hdelivered⟩ := hreturned token rfl
        exact hbefore token labels hdelivered
      · exact (h.ahead token htoken).later _
  | included source labels =>
    obtain rfl := Option.some.inj hact
    refine ⟨fun token labels' hacts => ?_, fun token htoken => ?_⟩
    · rcases List.mem_append.mp hacts with hacts | hacts
      · exact hbefore token labels' hacts
      · cases List.mem_singleton.mp hacts
    · rcases List.mem_append.mp htoken with htoken | htoken
      · obtain ⟨token', htoken', heq⟩ := List.mem_map.mp htoken
        obtain rfl := Item.token.inj heq
        exact drawn_included (hincluded source labels rfl token' htoken') labels
      · rcases List.mem_cons.mp htoken with heq | htoken
        · cases heq
        · exact (h.ahead token htoken).later _

end Scanner

end GrammarEngine
