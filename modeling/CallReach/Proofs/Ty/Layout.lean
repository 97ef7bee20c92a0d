import Mathlib
import CallReach.Proofs.Source.Grammar
import CallReach.Proofs.Ty.Printing

/-!
# Layouts of a type

A layout is a way to spell a type: the words of its name and then its stars, with
qualifiers anywhere and blanks anywhere, at least between two words.  It is read as
the type when no qualifier touches its neighbour, which can only be a star.

* `glued` puts the tokens with nothing between them in one group.  The groups are
  the words of the spelling (`Layout.words_spelling`), and a group does not count
  when it is a qualifier by itself (`counts_eq_false_iff`).
* `starred_unwords` reads groups without qualifiers, from the last star on.
* `letters` are the characters that are neither blanks nor stars.  Reading keeps
  them all (`Starred.letters_text`), so a qualifier in a group that counts shows up
  in the name of the type.
-/

namespace CallReach.Ty

open Text

/-! ## Tokens -/

/-- A word of the name of a type. -/
structure BaseWord where
  chars : List Char
  isWord : IsWord chars
  starless : '*' ∉ chars
  counts : chars ∉ qualifiers

/-- What a spelling is written with. -/
inductive Token where
  | word (word : BaseWord)
  | qualifier (chars : List Char) (h : chars ∈ qualifiers)
  | star

namespace Token

/-- The characters of a token. -/
def chars : Token → List Char
  | word w => w.chars
  | qualifier q _ => q
  | star => ['*']

/-- Whether a token says nothing about the type. -/
def isQualifier : Token → Bool
  | qualifier .. => true
  | _ => false

theorem isWord_chars (token : Token) : IsWord token.chars := by
  cases token with
  | word w => exact w.isWord
  | qualifier q h =>
    have hall : (qualifiers.all fun q => !q.isEmpty && q.all (!isBlank ·)) = true := rfl
    have hq := List.all_eq_true.1 hall q h
    simp only [Bool.and_eq_true, List.all_eq_true, Bool.not_eq_true',
      List.isEmpty_eq_false_iff] at hq
    exact ⟨hq.1, hq.2⟩
  | star => exact ⟨by simp [chars], List.forall_mem_singleton.2 rfl⟩

end Token

/-- A token and the blanks before it. -/
structure Piece where
  gap : List Char
  token : Token
  blank : ∀ c ∈ gap, isBlank c = true

/-- The characters of a piece. -/
def Piece.chars (piece : Piece) : List Char :=
  piece.gap ++ piece.token.chars

/-! ## Layouts -/

/-- A way to spell a type: words and then stars, with qualifiers anywhere, and with
blanks anywhere that stand at least between two words. -/
structure Layout where
  base : List BaseWord
  depth : Nat
  pieces : List Piece
  trailing : List Char
  base_ne_nil : base ≠ []
  tokens : (pieces.map Piece.token).filter (!·.isQualifier) =
    base.map .word ++ List.replicate depth .star
  -- Qualifiers are words here: they touch nothing but stars.
  apart : pieces.IsChain fun p q => q.gap = [] → p.token = .star ∨ q.token = .star
  blank : ∀ c ∈ trailing, isBlank c = true

namespace Layout

/-- The text of a layout. -/
def spelling (layout : Layout) : String :=
  String.ofList (layout.pieces.flatMap Piece.chars ++ layout.trailing)

/-- The type that a layout is to spell. -/
def type (layout : Layout) : Ty :=
  pointers layout.depth (.scalar (String.ofList (unwords (layout.base.map BaseWord.chars))))

/-- No qualifier touches its neighbour. -/
def Loose (layout : Layout) : Prop :=
  layout.pieces.IsChain fun p q =>
    q.gap = [] → p.token.isQualifier = false ∧ q.token.isQualifier = false

end Layout

/-! ## The words of a layout -/

/-- Whether a piece stands right behind the piece before it. -/
def Piece.follows (_ piece : Piece) : Bool :=
  piece.gap.isEmpty

/-- The pieces of a list in groups with nothing between them. -/
def glued (pieces : List Piece) : List (List Piece) :=
  pieces.splitBy Piece.follows

/-- The characters of the tokens of a group. -/
def solidChars (group : List Piece) : List Char :=
  group.flatMap fun piece => piece.token.chars

variable {p : Piece} {rest group pieces : List Piece} {groups : List (List Piece)}
  {trailing : List Char}

theorem isChain_cons_iff_forall {P : Piece → Prop} :
    ((p :: rest).IsChain fun _ q => P q) ↔ ∀ q ∈ rest, P q := by
  induction rest generalizing p with
  | nil => simp
  | cons q rest ih => rw [List.isChain_cons_cons, List.forall_mem_cons, ih]

/-- Only the first piece of a group has blanks before it. -/
theorem gap_eq_nil_of_isChain (h : (p :: rest).IsChain fun a b => a.follows b = true) :
    ∀ q ∈ rest, q.gap = [] := by
  have hempty := isChain_cons_iff_forall (P := fun q => q.gap.isEmpty = true).1 h
  exact fun q hq => List.isEmpty_iff.1 (hempty q hq)

theorem gap_head_ne_nil_of_glued (pieces : List Piece) :
    (glued pieces).IsChain fun _ b => ∀ q ∈ b.head?, q.gap ≠ [] := by
  refine (List.isChain_getLast_head_splitBy Piece.follows pieces).imp ?_
  rintro a b ⟨ha, hb, hgap⟩ q hq
  rw [List.head?_eq_some_head hb] at hq
  rw [← Option.some.inj hq]
  simpa [Piece.follows] using hgap

theorem flatMap_chars_of_isChain (h : (p :: rest).IsChain fun a b => a.follows b = true) :
    (p :: rest).flatMap Piece.chars = p.gap ++ solidChars (p :: rest) := by
  have hrest : rest.flatMap Piece.chars = rest.flatMap fun piece => piece.token.chars := by
    refine List.flatMap_congr fun q hq => ?_
    rw [Piece.chars, gap_eq_nil_of_isChain h q hq, List.nil_append]
  rw [List.flatMap_cons, hrest, Piece.chars, solidChars, List.flatMap_cons, List.append_assoc]

theorem isWord_solidChars (hne : group ≠ []) : IsWord (solidChars group) := by
  obtain ⟨p, rest, rfl⟩ := List.exists_cons_of_ne_nil hne
  refine ⟨?_, fun c hc => ?_⟩
  · simp [solidChars, (Token.isWord_chars p.token).ne_nil]
  · obtain ⟨q, -, hc⟩ := List.mem_flatMap.1 hc
    exact (Token.isWord_chars q.token).solid c hc

/-- The text of a list of pieces starts with a blank where its first gap has one. -/
theorem isBlank_head_of_gap {c : Char} (hgap : p.gap ≠ [])
    (hc : c ∈ ((p :: rest).flatMap Piece.chars ++ trailing).head?) : isBlank c = true := by
  rw [List.flatMap_cons, Piece.chars, List.append_assoc, List.append_assoc,
    List.head?_append_of_ne_nil _ hgap] at hc
  exact p.blank c (List.mem_of_mem_head? hc)

/-- Groups of pieces that are apart from each other are the words of their text. -/
theorem words_flatMap_chars (hne : [] ∉ groups)
    (hglued : ∀ g ∈ groups, g.IsChain fun a b => a.follows b = true)
    (hapart : groups.IsChain fun _ b => ∀ q ∈ b.head?, q.gap ≠ [])
    (htrailing : ∀ c ∈ trailing, isBlank c = true) :
    words (groups.flatten.flatMap Piece.chars ++ trailing) = groups.map solidChars := by
  induction groups with
  | nil => simpa using words_append_of_blanks htrailing []
  | cons g groups ih =>
    obtain ⟨p, rest, rfl⟩ := List.exists_cons_of_ne_nil fun heq => hne (heq ▸ List.mem_cons_self)
    obtain ⟨hchain, hlater⟩ := List.forall_mem_cons.1 hglued
    rw [List.isChain_cons] at hapart
    have hothers : [] ∉ groups := fun hmem => hne (List.mem_cons_of_mem _ hmem)
    have hnext : ∀ c ∈ (groups.flatten.flatMap Piece.chars ++ trailing).head?,
        isBlank c = true := by
      intro c hc
      cases groups with
      | nil => exact htrailing c (List.mem_of_mem_head? hc)
      | cons h groups =>
        obtain ⟨q, others, rfl⟩ :=
          List.exists_cons_of_ne_nil fun heq => hothers (heq ▸ List.mem_cons_self)
        exact isBlank_head_of_gap (hapart.1 _ rfl q rfl) hc
    rw [List.flatten_cons, List.flatMap_append, flatMap_chars_of_isChain hchain,
      List.append_assoc, List.append_assoc, words_append_of_blanks p.blank,
      (isWord_solidChars (by simp)).words_append hnext, List.map_cons, ih hothers hlater hapart.2]

theorem Layout.words_spelling (layout : Layout) :
    words layout.spelling.toList = (glued layout.pieces).map solidChars := by
  have hwords := words_flatMap_chars (List.nil_notMem_splitBy _ _)
    (fun g hg => List.isChain_of_mem_splitBy hg) (gap_head_ne_nil_of_glued layout.pieces)
    layout.blank
  rw [List.flatten_splitBy] at hwords
  rw [spelling, String.toList_ofList, hwords, glued]

/-! ## The words that count -/

/-- Whether the word that a group makes counts. -/
def counts (group : List Piece) : Bool :=
  !qualifiers.contains (solidChars group)

/-- Two neighbours in a group are not both words. -/
def Starry (group : List Piece) : Prop :=
  group.IsChain fun p q => p.token = .star ∨ q.token = .star

/-- A group of words alone is one word. -/
theorem Starry.eq_singleton (h : Starry group) (hne : group ≠ [])
    (hnone : ∀ p ∈ group, p.token ≠ .star) : ∃ p, group = [p] := by
  obtain ⟨p, rest, rfl⟩ := List.exists_cons_of_ne_nil hne
  cases rest with
  | nil => exact ⟨p, rfl⟩
  | cons q rest =>
    rcases (List.isChain_cons_cons.1 h).1 with hstar | hstar
    · exact absurd hstar (hnone p (by simp))
    · exact absurd hstar (hnone q (by simp))

theorem solidChars_singleton (p : Piece) : solidChars [p] = p.token.chars :=
  List.flatMap_singleton ..

theorem star_mem_solidChars (hp : p ∈ group) (hstar : p.token = .star) : '*' ∈ solidChars group :=
  List.mem_flatMap.2 ⟨p, hp, by simp [hstar, Token.chars]⟩

/-- A group does not count when it is a qualifier by itself. -/
theorem counts_eq_false_iff (hne : group ≠ []) (hstarry : Starry group) :
    counts group = false ↔ ∃ p, group = [p] ∧ p.token.isQualifier = true := by
  rw [counts, Bool.not_eq_false', List.contains_iff_mem]
  constructor
  · intro hmem
    have hnone : ∀ p ∈ group, p.token ≠ .star := fun p hp hstar =>
      star_not_mem_of_mem_qualifiers hmem (star_mem_solidChars hp hstar)
    obtain ⟨p, rfl⟩ := hstarry.eq_singleton hne hnone
    refine ⟨p, rfl, ?_⟩
    rw [solidChars_singleton] at hmem
    cases htoken : p.token with
    | word w =>
      rw [htoken] at hmem
      exact absurd hmem w.counts
    | qualifier q h => rfl
    | star => exact absurd htoken (hnone p (by simp))
  · rintro ⟨p, rfl, hp⟩
    rw [solidChars_singleton]
    cases htoken : p.token with
    | qualifier q h => exact h
    | word w => simp [htoken, Token.isQualifier] at hp
    | star => simp [htoken, Token.isQualifier] at hp

/-- What holds of neighbours with nothing between them holds inside the groups. -/
theorem isChain_iff_glued {R : Piece → Piece → Prop} :
    (pieces.IsChain fun p q => q.gap = [] → R p q) ↔ ∀ g ∈ glued pieces, g.IsChain R := by
  have hne : [] ∉ glued pieces := List.nil_notMem_splitBy _ _
  have hcross : (glued pieces).IsChain fun a b =>
      ∀ p ∈ a.getLast?, ∀ q ∈ b.head?, q.gap = [] → R p q :=
    (gap_head_ne_nil_of_glued pieces).imp fun a b hgap p _ q hq hnil => absurd hnil (hgap q hq)
  have hinside : ∀ g ∈ glued pieces, (g.IsChain fun p q => q.gap = [] → R p q) ↔ g.IsChain R := by
    intro g hg
    obtain ⟨p, rest, rfl⟩ := List.exists_cons_of_ne_nil (List.ne_nil_of_mem_splitBy hg)
    have hgaps := gap_eq_nil_of_isChain (List.isChain_of_mem_splitBy hg)
    exact List.IsChain.iff_of_mem_tail_imp fun a b _ hb =>
      ⟨fun hab => hab (hgaps b hb), fun hab _ => hab⟩
  have hflatten : (glued pieces).flatten = pieces := List.flatten_splitBy _ _
  nth_rewrite 1 [← hflatten]
  rw [List.isChain_flatten hne, and_iff_left hcross]
  exact forall₂_congr hinside

/-- A group in which no qualifier has a neighbour is a qualifier by itself or has
none. -/
theorem isChain_isQualifier_iff (hne : group ≠ []) (hstarry : Starry group) :
    (group.IsChain fun p q => p.token.isQualifier = false ∧ q.token.isQualifier = false) ↔
      (counts group = true → ∀ p ∈ group, p.token.isQualifier = false) := by
  constructor
  · intro hchain hcounts
    obtain ⟨p, rest, rfl⟩ := List.exists_cons_of_ne_nil hne
    cases rest with
    | nil =>
      refine List.forall_mem_singleton.2 (Bool.eq_false_iff.2 fun hp => ?_)
      rw [(counts_eq_false_iff hne hstarry).2 ⟨p, rfl, hp⟩] at hcounts
      cases hcounts
    | cons q rest =>
      have hfirst := (List.isChain_cons_cons.1 hchain).1.1
      have hlater := isChain_cons_iff_forall.1 (hchain.imp fun _ _ h => h.2)
      exact List.forall_mem_cons.2 ⟨hfirst, hlater⟩
  · intro hnone
    cases hcounts : counts group with
    | true =>
      have hall := hnone hcounts
      exact (List.pairwise_of_forall_mem_list fun p hp q hq => ⟨hall p hp, hall q hq⟩).isChain
    | false =>
      obtain ⟨p, rfl, -⟩ := (counts_eq_false_iff hne hstarry).1 hcounts
      exact .singleton p

namespace Layout

variable (layout : Layout)

/-- The groups of a layout that count. -/
def kept : List (List Piece) :=
  (glued layout.pieces).filter counts

theorem normalize_spelling :
    normalize layout.spelling.toList = unwords (layout.kept.map solidChars) := by
  rw [normalize, layout.words_spelling, List.filter_map]
  rfl

theorem starry_of_mem_glued {group : List Piece} (h : group ∈ glued layout.pieces) :
    Starry group :=
  isChain_iff_glued.1 layout.apart group h

/-- A layout is loose when no word that counts has a qualifier in it. -/
theorem loose_iff : layout.Loose ↔
    ∀ group ∈ layout.kept, ∀ p ∈ group, p.token.isQualifier = false := by
  rw [Loose, isChain_iff_glued]
  constructor
  · intro hchain group hgroup
    obtain ⟨hglued, hcounts⟩ := List.mem_filter.1 hgroup
    exact (isChain_isQualifier_iff (List.ne_nil_of_mem_splitBy hglued)
      (layout.starry_of_mem_glued hglued)).1 (hchain group hglued) hcounts
  · intro hnone group hglued
    refine (isChain_isQualifier_iff (List.ne_nil_of_mem_splitBy hglued)
      (layout.starry_of_mem_glued hglued)).2 fun hcounts => ?_
    exact hnone group (List.mem_filter.2 ⟨hglued, hcounts⟩)

/-- What does not count are qualifiers alone, so the other tokens are kept. -/
theorem filter_tokens_kept :
    (layout.kept.flatten.map Piece.token).filter (!·.isQualifier) =
      layout.base.map .word ++ List.replicate layout.depth .star := by
  have hdropped : ∀ group ∈ glued layout.pieces, counts group = false →
      (group.map Piece.token).filter (!·.isQualifier) = [] := by
    intro group hgroup hcounts
    obtain ⟨p, rfl, hp⟩ := (counts_eq_false_iff (List.ne_nil_of_mem_splitBy hgroup)
      (layout.starry_of_mem_glued hgroup)).1 hcounts
    simp [hp]
  have hkept : (layout.kept.flatten.map Piece.token).filter (!·.isQualifier) =
      ((glued layout.pieces).flatten.map Piece.token).filter (!·.isQualifier) := by
    rw [kept]
    generalize glued layout.pieces = groups at hdropped
    induction groups with
    | nil => rfl
    | cons group groups ih =>
      obtain ⟨hfirst, hlater⟩ := List.forall_mem_cons.1 hdropped
      rw [List.flatten_cons, List.map_append, List.filter_append, ← ih hlater]
      cases hcounts : counts group with
      | true =>
        rw [List.filter_cons_of_pos hcounts, List.flatten_cons, List.map_append,
          List.filter_append]
      | false =>
        rw [List.filter_cons_of_neg (by simp [hcounts]), hfirst hcounts, List.nil_append]
  rw [hkept, glued, List.flatten_splitBy, layout.tokens]

end Layout

/-! ## Reading words and stars -/

/-- A star that stands apart makes a pointer. -/
theorem Starred.star_word {ws : List (List Char)} {type : Ty} (h : Starred (unwords ws) type)
    (hws : ∀ w ∈ ws, IsWord w) : Starred (unwords (ws ++ [['*']])) (.pointer type) := by
  have hne : ws ≠ [] := fun heq => h.ne_nil (by rw [heq, unwords_nil])
  have hpointer := Starred.pointer [' '] (List.forall_mem_singleton.2 rfl) (neat_unwords hws).stop h
  rwa [List.append_assoc, List.singleton_append, ← unwords_concat hne] at hpointer

/-- A star that touches the last word makes a pointer. -/
theorem Starred.star_glued {ws : List (List Char)} {word : List Char} {type : Ty}
    (h : Starred (unwords (ws ++ [word])) type) (hws : ∀ w ∈ ws ++ [word], IsWord w) :
    Starred (unwords (ws ++ [word ++ ['*']])) (.pointer type) := by
  have hpointer := Starred.pointer [] (by simp) (neat_unwords hws).stop h
  rwa [List.append_nil, ← unwords_concat_append] at hpointer

section Stars

variable {base : List BaseWord} {depth : Nat}

/-- Words without stars stand in groups of their own. -/
theorem map_solidChars_of_words (hne : [] ∉ groups) (hstarry : ∀ g ∈ groups, Starry g)
    (htokens : groups.flatten.map Piece.token = base.map .word) :
    groups.map solidChars = base.map BaseWord.chars := by
  induction groups generalizing base with
  | nil =>
    obtain rfl : base = [] := by simpa using htokens.symm
    rfl
  | cons g groups ih =>
    obtain ⟨hfirst, hlater⟩ := List.forall_mem_cons.1 hstarry
    have hnone : ∀ q ∈ g, q.token ≠ .star := by
      intro q hq hstar
      have hmem : q.token ∈ base.map Token.word := by
        rw [← htokens]
        exact List.mem_map_of_mem (List.mem_append_left _ hq)
      obtain ⟨w, -, hw⟩ := List.mem_map.1 hmem
      rw [hstar] at hw
      cases hw
    obtain ⟨p, rfl⟩ := hfirst.eq_singleton (fun heq => hne (heq ▸ List.mem_cons_self)) hnone
    have hothers : [] ∉ groups := fun hmem => hne (List.mem_cons_of_mem _ hmem)
    cases base with
    | nil => simp at htokens
    | cons w base =>
      simp only [List.flatten_cons, List.singleton_append, List.map_cons, List.cons.injEq]
        at htokens
      rw [List.map_cons, List.map_cons, ih hothers hlater htokens.2, solidChars_singleton,
        htokens.1, Token.chars]

/-- Words and then stars, in groups, denote the pointers to what the words name. -/
theorem starred_unwords (hbase : base ≠ []) (hne : [] ∉ groups)
    (hstarry : ∀ g ∈ groups, Starry g)
    (htokens : groups.flatten.map Piece.token =
      base.map .word ++ List.replicate depth .star) :
    Starred (unwords (groups.map solidChars))
      (pointers depth (.scalar (String.ofList (unwords (base.map BaseWord.chars))))) := by
  have hwords {groups : List (List Piece)} (hne : [] ∉ groups) :
      ∀ w ∈ groups.map solidChars, IsWord w :=
    List.forall_mem_map.2 fun g hg => isWord_solidChars fun heq => hne (heq ▸ hg)
  induction depth generalizing groups with
  | zero =>
    rw [List.replicate_zero, List.append_nil] at htokens
    have hnames := map_solidChars_of_words hne hstarry htokens
    have hgroups : groups.map solidChars ≠ [] := by
      rw [hnames]
      simpa using hbase
    rw [← hnames]
    refine .scalar (unwords_ne_nil hgroups (hwords hne)) fun hstar => ?_
    rcases mem_unwords (List.mem_of_getLast? hstar) with hspace | ⟨w, hw, hmem⟩
    · cases hspace
    · rw [hnames] at hw
      obtain ⟨word, -, rfl⟩ := List.mem_map.1 hw
      exact word.starless hmem
  | succ depth ih =>
    obtain ⟨init, last, rfl⟩ := List.eq_nil_or_concat' groups |>.resolve_left
      (by rintro rfl; simp at htokens)
    obtain ⟨g, p, rfl⟩ := List.eq_nil_or_concat' last |>.resolve_left (by rintro rfl; simp at hne)
    obtain ⟨hinit, hlast⟩ := List.forall_mem_append.1 hstarry
    have hsplit : (init.flatten ++ g).map Piece.token ++ [p.token] =
        (base.map .word ++ List.replicate depth .star) ++ [.star] := by
      simpa [List.replicate_succ'] using htokens
    obtain ⟨hbefore, hstar⟩ := List.append_inj' hsplit rfl
    have hchars : solidChars (g ++ [p]) = solidChars g ++ ['*'] := by
      rw [solidChars, List.flatMap_append, List.flatMap_singleton, (List.cons.inj hstar).1]
      rfl
    have hempty : [] ∉ init := fun hmem => hne (List.mem_append_left _ hmem)
    rw [List.map_append, List.map_singleton, hchars, pointers_succ]
    by_cases hg : g = []
    · subst hg
      exact (ih hempty hinit (by simpa using hbefore)).star_word (hwords hempty)
    · have hgroups : [] ∉ init ++ [g] := by
        simp only [List.mem_append, List.mem_singleton, not_or]
        exact ⟨hempty, Ne.symm hg⟩
      have hfront : Starry (g ++ [p]) := hlast (g ++ [p]) (by simp)
      have hstarry' : ∀ h ∈ init ++ [g], Starry h :=
        List.forall_mem_append.2 ⟨hinit, List.forall_mem_singleton.2 hfront.left_of_append⟩
      have hstarred := ih hgroups hstarry' (by simpa using hbefore)
      have hgroupWords := hwords hgroups
      rw [List.map_append, List.map_singleton] at hstarred hgroupWords
      exact hstarred.star_glued hgroupWords

end Stars

/-! ## Letters -/

/-- The characters of a text that are neither blanks nor stars. -/
def letters (text : List Char) : List Char :=
  text.filter fun c => !isBlank c && c != '*'

theorem letters_append (text more : List Char) :
    letters (text ++ more) = letters text ++ letters more :=
  List.filter_append ..

theorem letters_eq_nil {text : List Char} (h : ∀ c ∈ text, isBlank c = true ∨ c = '*') :
    letters text = [] := by
  refine List.filter_eq_nil_iff.2 fun c hc => ?_
  rcases h c hc with hblank | rfl
  · simp [hblank]
  · simp

theorem letters_eq_self {text : List Char} (hsolid : ∀ c ∈ text, isBlank c = false)
    (hstarless : '*' ∉ text) : letters text = text := by
  refine List.filter_eq_self.2 fun c hc => ?_
  have hother : c ≠ '*' := fun heq => hstarless (heq ▸ hc)
  simp [hsolid c hc, hother]

theorem letters_unwords (ws : List (List Char)) : letters (unwords ws) = ws.flatMap letters := by
  induction ws with
  | nil => rfl
  | cons word ws ih =>
    cases ws with
    | nil => simp
    | cons next ws =>
      rw [unwords_cons_cons, letters_append, List.flatMap_cons, ← ih]
      rfl

/-- The letters of a text are those of the type that it denotes. -/
theorem Starred.letters_text {text : List Char} {type : Ty} (h : Starred text type) :
    letters type.text.toList = letters text := by
  induction h with
  | scalar => simp [Ty.text]
  | @pointer text type blanks hblanks _ _ ih =>
    have hnone : letters (blanks ++ ['*']) = [] := by
      refine letters_eq_nil (List.forall_mem_append.2 ⟨fun c hc => .inl (hblanks c hc), ?_⟩)
      exact List.forall_mem_singleton.2 (.inr rfl)
    rw [Ty.text, String.toList_append, letters_append, ih, List.append_assoc, letters_append,
      hnone]
    rfl

theorem letters_peelStars (text : List Char) : letters (peelStars text).2 = letters text := by
  fun_induction peelStars text with
  | case1 rest depth base hpeel ih =>
    rw [hpeel] at ih
    have hblanks : letters (rest.takeWhile isBlank) = [] :=
      letters_eq_nil fun c hc => .inl (List.mem_takeWhile_imp hc)
    calc letters base
        = letters (rest.dropWhile isBlank) := ih
      _ = letters (rest.takeWhile isBlank ++ rest.dropWhile isBlank) := by
          rw [letters_append, hblanks, List.nil_append]
      _ = letters ('*' :: rest) := by
          rw [List.takeWhile_append_dropWhile]
          rfl
  | case2 base hstar => rfl

/-- A text with a letter that counts denotes a type. -/
theorem exists_ofSpelling_of_letters {spelling : String}
    (h : letters (normalize spelling.toList) ≠ []) : ∃ type, ofSpelling spelling = .ok type := by
  unfold ofSpelling
  dsimp only
  split
  · rename_i hempty
    have hletters := letters_peelStars (normalize spelling.toList).reverse
    rw [List.isEmpty_iff.1 hempty, letters, letters, List.filter_reverse] at hletters
    exact absurd (List.reverse_eq_nil_iff.1 hletters.symm) h
  · exact ⟨_, rfl⟩

theorem Token.letters_chars {token : Token} (h : token ≠ .star) :
    letters token.chars = token.chars := by
  refine letters_eq_self token.isWord_chars.solid ?_
  cases token with
  | word w => exact w.starless
  | qualifier q hq => exact star_not_mem_of_mem_qualifiers hq
  | star => exact absurd rfl h

/-- If the members that are kept bring as much as all of them, and each member that
is dropped brings something, then none is dropped. -/
theorem forall_of_length_flatMap_filter {f : Token → List Char} {keep : Token → Bool}
    {tokens : List Token} (hf : ∀ t ∈ tokens, keep t = false → f t ≠ [])
    (h : (tokens.flatMap f).length ≤ ((tokens.filter keep).flatMap f).length) :
    ∀ t ∈ tokens, keep t = true := by
  induction tokens with
  | nil => simp
  | cons t tokens ih =>
    obtain ⟨hfirst, hlater⟩ := List.forall_mem_cons.1 hf
    rw [List.flatMap_cons, List.length_append] at h
    cases hkeep : keep t with
    | true =>
      rw [List.filter_cons_of_pos hkeep, List.flatMap_cons, List.length_append] at h
      exact List.forall_mem_cons.2 ⟨hkeep, ih hlater (by omega)⟩
    | false =>
      rw [List.filter_cons_of_neg (by simp [hkeep])] at h
      have hless : ((tokens.filter keep).flatMap f).length ≤ (tokens.flatMap f).length :=
        (List.filter_sublist.flatMap f).length_le
      have hsome := List.length_pos_iff.2 (hfirst hkeep)
      omega

namespace Layout

variable (layout : Layout)

/-- The letters of a layout that count. -/
theorem letters_normalize :
    letters (normalize layout.spelling.toList) =
      (layout.kept.flatten.map Piece.token).flatMap fun token => letters token.chars := by
  rw [layout.normalize_spelling, letters_unwords, List.flatMap_map, List.flatMap_map]
  generalize layout.kept = groups
  induction groups with
  | nil => rfl
  | cons g groups ih =>
    rw [List.flatMap_cons, ih, List.flatten_cons, List.flatMap_append]
    congr 1
    rw [solidChars, letters, List.filter_flatMap]
    rfl

theorem letters_type :
    letters layout.type.text.toList =
      (layout.base.map Token.word ++ List.replicate layout.depth Token.star).flatMap
        fun token => letters token.chars := by
  have hstars : (List.replicate layout.depth Token.star).flatMap
      (fun token => letters token.chars) = letters (List.replicate layout.depth '*') := by
    rw [letters_eq_nil fun c hc => .inr (List.eq_of_mem_replicate hc)]
    refine List.flatMap_eq_nil_iff.2 fun token htoken => ?_
    rw [List.eq_of_mem_replicate htoken]
    rfl
  rw [type, toList_text_pointers, letters_append, letters_unwords, List.flatMap_append, hstars,
    List.flatMap_map, List.flatMap_map]
  rfl

/-- A layout is read as the type that it is to spell when it is loose. -/
theorem ofSpelling_eq_ok_iff : ofSpelling layout.spelling = .ok layout.type ↔ layout.Loose := by
  rw [Ty.ofSpelling_eq_ok_iff, Spelled, layout.loose_iff]
  have hkept : ∀ group ∈ layout.kept, group ∈ glued layout.pieces :=
    fun group hgroup => (List.mem_filter.1 hgroup).1
  constructor
  · -- A qualifier in a word that counts would bring letters to the name.
    intro hstarred
    have hletters := hstarred.letters_text
    rw [layout.letters_type, layout.letters_normalize, ← layout.filter_tokens_kept] at hletters
    have hnone := forall_of_length_flatMap_filter (fun token _ hqualifier => ?_)
      (congrArg List.length hletters).ge
    · intro group hgroup p hp
      simpa using hnone p.token (List.mem_map_of_mem (List.mem_flatten.2 ⟨group, hgroup, hp⟩))
    · have hstar : token ≠ .star := by
        rintro rfl
        cases hqualifier
      rw [Token.letters_chars hstar]
      exact token.isWord_chars.ne_nil
  · intro hnone
    have htokens := layout.filter_tokens_kept
    rw [List.filter_eq_self.2] at htokens
    · rw [layout.normalize_spelling]
      refine starred_unwords layout.base_ne_nil (fun hmem => ?_)
        (fun g hg => layout.starry_of_mem_glued (hkept g hg)) htokens
      exact List.nil_notMem_splitBy _ _ (hkept _ hmem)
    · intro token htoken
      obtain ⟨p, hp, rfl⟩ := List.mem_map.1 htoken
      obtain ⟨group, hgroup, hp⟩ := List.mem_flatten.1 hp
      simp [hnone group hgroup p hp]

theorem exists_ofSpelling : ∃ type, ofSpelling layout.spelling = .ok type := by
  refine exists_ofSpelling_of_letters fun hnone => ?_
  obtain ⟨word, hword⟩ := List.exists_mem_of_ne_nil _ layout.base_ne_nil
  have hkept : Token.word word ∈ layout.kept.flatten.map Piece.token := by
    refine List.mem_of_mem_filter (p := (!·.isQualifier)) ?_
    rw [layout.filter_tokens_kept]
    exact List.mem_append_left _ (List.mem_map_of_mem hword)
  rw [layout.letters_normalize, List.flatMap_eq_nil_iff] at hnone
  have hchars := hnone _ hkept
  rw [Token.letters_chars (by simp)] at hchars
  exact word.isWord.ne_nil hchars

/-- A layout is read as a type, which is the one that it is to spell when it is
loose. -/
theorem exists_read : ∃ type, ofSpelling layout.spelling = .ok type ∧
    (type = layout.type ↔ layout.Loose) := by
  obtain ⟨type, hread⟩ := layout.exists_ofSpelling
  refine ⟨type, hread, ?_⟩
  rw [← layout.ofSpelling_eq_ok_iff, hread, Except.ok.injEq]

/-! ## Spelled signatures -/

/-- The tree of a signature whose types are spelled. -/
def signatureTree (result : Layout) (params : List Layout) (variadic : Bool) : Sexpr :=
  .list (.symbol "fn" :: .text result.spelling :: (params.map fun param => .text param.spelling) ++
    if variadic then [.symbol "..."] else [])

theorem exists_typeForm : ∃ type, Source.TypeForm (.text layout.spelling) type ∧
    (type = layout.type ↔ layout.Loose) := by
  obtain ⟨type, hread, hloose⟩ := layout.exists_read
  exact ⟨type, .spelled (.text _) (Ty.ofSpelling_eq_ok_iff.1 hread), hloose⟩

theorem exists_paramForms (params : List Layout) (variadic : Bool) :
    ∃ types, Source.ParamForms ((params.map fun param => .text param.spelling) ++
        if variadic then [.symbol "..."] else []) types variadic ∧
      (types = params.map type ↔ ∀ param ∈ params, param.Loose) := by
  induction params with
  | nil =>
    refine ⟨[], ?_, by simp⟩
    cases variadic with
    | false => exact .none
    | true => exact .dots
  | cons param params ih =>
    obtain ⟨type, htype, hloose⟩ := param.exists_typeForm
    obtain ⟨types, htypes, hlooses⟩ := ih
    refine ⟨type :: types, .param htype nofun htypes, ?_⟩
    rw [List.map_cons, List.cons.injEq, hloose, hlooses, List.forall_mem_cons]

/-- A layout is read as a type, and as the one that it is to spell exactly when no
qualifier touches its neighbour.  So a signature with spelled types is read as a
signature, and as the one of the types that are to be spelled exactly when all their
layouts are loose. -/
theorem read_as_type_iff_loose (result : Layout) (params : List Layout) (variadic : Bool) :
    (∃ type, ofSpelling result.spelling = .ok type ∧ (type = result.type ↔ result.Loose)) ∧
    ∃ found types,
      Source.typeOfSexpr (signatureTree result params variadic) =
        .ok (.signature found types variadic) ∧
      (found = result.type ∧ types = params.map type ↔
        ∀ layout ∈ result :: params, layout.Loose) := by
  obtain ⟨found, hresult, hloose⟩ := result.exists_typeForm
  obtain ⟨types, hparams, hlooses⟩ := exists_paramForms params variadic
  refine ⟨result.exists_read, found, types, (Source.SignatureForm.fn hresult hparams).read, ?_⟩
  rw [hloose, hlooses, List.forall_mem_cons]

/-- The word `i8`. -/
def byteWord : BaseWord where
  chars := ['i', '8']
  isWord := ⟨by simp, List.forall_mem_cons.2 ⟨rfl, List.forall_mem_singleton.2 rfl⟩⟩
  starless := by decide
  counts := by decide

/-- A layout with a qualifier between two stars and blanks around it. -/
def spaced : Layout where
  base := [byteWord]
  depth := 2
  pieces := [
    ⟨[], .qualifier "const".toList (by decide), nofun⟩,
    ⟨[' ', ' '], .word byteWord, List.all_eq_true.1 rfl⟩,
    ⟨[], .star, nofun⟩,
    ⟨['\t'], .qualifier "volatile".toList (by decide), List.all_eq_true.1 rfl⟩,
    ⟨[' '], .star, List.all_eq_true.1 rfl⟩]
  trailing := []
  base_ne_nil := by simp
  tokens := rfl
  apart := by simp
  blank := nofun

/-- The spaced layout is read as it is meant, alone and as the types of a signature. -/
theorem read_as_type_iff_loose_spaced :
    spaced.spelling = "const  i8*\tvolatile *" ∧ spaced.type = pointers 2 (.scalar "i8") ∧
      spaced.Loose ∧ ofSpelling spaced.spelling = .ok spaced.type ∧
      Source.typeOfSexpr (signatureTree spaced [spaced] true) =
        .ok (.signature spaced.type [spaced.type] true) := by
  have hloose : spaced.Loose := by simp [Loose, spaced, Token.isQualifier]
  obtain ⟨⟨type, hread, htype⟩, found, types, hsignature, hfound⟩ :=
    read_as_type_iff_loose spaced [spaced] true
  obtain ⟨rfl, rfl⟩ := hfound.2 (by simp [hloose])
  exact ⟨by cbv, by cbv, hloose, htype.2 hloose ▸ hread, hsignature⟩

/-- A layout with a qualifier that touches a star. -/
def tight : Layout where
  base := [byteWord]
  depth := 1
  pieces := [
    ⟨[], .word byteWord, nofun⟩,
    ⟨[' '], .qualifier "const".toList (by decide), List.all_eq_true.1 rfl⟩,
    ⟨[], .star, nofun⟩]
  trailing := []
  base_ne_nil := by simp
  tokens := rfl
  apart := by simp
  blank := nofun

/-- Not every layout is read as it is meant: in the tight one the qualifier is left
in the name. -/
theorem exists_layout_misread : ∃ layout : Layout, layout.spelling = "i8 const*" ∧
    layout.type = .pointer (.scalar "i8") ∧
    ofSpelling "i8 const*" = .ok (.pointer (.scalar "i8 const")) :=
  ⟨tight, by cbv, by cbv, by cbv⟩

end Layout

end CallReach.Ty
