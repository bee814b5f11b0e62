import Stencil.Proofs.Script.Phrase
import Stencil.Script.Parser

/-! # Reading a script that was written into

A reader takes a front of the tokens; the names its result uses are words of that front, and
brackets in the front match. If no other words of the front are marked, then the same reader takes
the corresponding front of the tokens of a script that was written into, and its result is the old
one with accesses for the marked names.

Other tokens may stand behind the script, as long as they begin with a comma, a closing bracket or a
plus sign. A reader that would go on with such a token is only known to stop before it inside the
script.

A reader goes one level deeper only after it has read a token. So the weight of the tokens that are
left bounds how deep its readers must be, whatever the depth of the readers of the script.
-/

namespace Stencil.Script

open List Token Reader Phrases Result

/-- Where a reader is: the places of names so far, the number of brackets open around it, and whether
    it has read a token. -/
structure Stage where
  spots : List Spot
  depth : Nat
  used : Bool

/-- The tokens after the bracket that closes the outermost one of those open. -/
def look : Nat → List Token → Option (List Token)
  | 0, tokens => some tokens
  | depth + 1, tokens => afterClosing? (depth + 1) tokens

/-- Passing over `front` takes the number of open brackets from `a` to `b`. -/
def Moves (front : List Token) (a b : Nat) : Prop :=
  ∀ depth rest, look (depth + a) (front ++ rest) = look (depth + b) rest

namespace Moves

theorem nil (a) : Moves [] a a :=
  fun _ _ => rfl

theorem append (h : Moves front a b) (h' : Moves front' b c) : Moves (front ++ front') a c := by
  intro depth rest
  rw [append_assoc, h, h']

theorem shift (d) (h : Moves front a b) : Moves front (a + d) (b + d) := by
  intro depth rest
  have := h (depth + d) rest
  rwa [Nat.add_assoc, Nat.add_comm d a, Nat.add_assoc, Nat.add_comm d b] at this

end Moves

def Token.isOpening (t : Token) : Bool :=
  t.kind == .punctuator && ["(", "[", "\x7b"].contains t.text

def Token.isClosing (t : Token) : Bool :=
  t.kind == .punctuator && [")", "]", "\x7d"].contains t.text

variable {α β : Type} {c : Copy} {t : Token}

theorem moves_opening (h : t.isOpening = true) (a) : Moves [t] (a + 1) (a + 2) := by
  intro depth rest
  show afterClosing? (depth + a + 1) (t :: rest) = afterClosing? (depth + a + 2) rest
  simp only [isOpening] at h
  simp only [afterClosing?, h, if_true]

theorem moves_closing (h : t.isClosing = true) (a) : Moves [t] (a + 1) a := by
  intro depth rest
  have noOpening : t.isOpening = false := by
    simp only [isClosing, isOpening, Bool.and_eq_true, contains_eq_mem,
      decide_eq_true_eq, mem_cons, not_mem_nil, or_false] at h ⊢
    rcases h with ⟨_, text | text | text⟩ <;> simp [text]
  simp only [isClosing] at h
  simp only [isOpening] at noOpening
  show afterClosing? (depth + a + 1) (t :: rest) = look (depth + a) rest
  simp only [afterClosing?, h, noOpening]
  cases depth + a <;> rfl

theorem moves_plain (noOpening : t.isOpening = false) (noClosing : t.isClosing = false) (a) :
    Moves [t] (a + 1) (a + 1) := by
  intro depth rest
  simp only [isClosing] at noClosing
  simp only [isOpening] at noOpening
  show afterClosing? (depth + a + 1) (t :: rest) = afterClosing? (depth + a + 1) rest
  simp only [afterClosing?, noClosing, noOpening, Bool.false_eq_true, if_false]

/-- The marks on a front of the tokens stand on the given places. -/
def Owned (m : Marks) (front : List Token) (spots : List Spot) : Prop :=
  ∀ t ∈ front, ∀ p k, t.start ≤ p → p < t.stop → m p = some k →
    ∃ x ∈ spots, x.ident.start = p ∧ x.mark = k

/-- The places are words of the tokens, in the order of the text. -/
structure Covers (front : List Token) (spots : List Spot) : Prop where
  words : ∀ x ∈ spots, Word front x.ident
  inOrder : Tidy front → spots.Pairwise fun x y => x.ident.start < y.ident.start

theorem Covers.nil (front) : Covers front [] :=
  ⟨by simp, fun _ => .nil⟩

theorem Covers.word {t : Token} (kind : t.kind = .word) (free : isReservedWord t.text = false)
    (shorthand) : Covers [t] [⟨⟨t.text, t.start, t.stop⟩, shorthand⟩] := by
  refine ⟨fun x member => ?_, fun _ => pairwise_singleton ..⟩
  obtain rfl := mem_singleton.mp member
  exact .token (by simp) kind free

theorem Covers.append {front front' spots spots'} (h : Covers front spots)
    (h' : Covers front' spots') : Covers (front ++ front') (spots ++ spots') := by
  constructor
  · intro x member
    rcases mem_append.mp member with first | second
    · exact (h.words x first).mono fun t => mem_append_left _
    · exact (h'.words x second).mono fun t => mem_append_right _
  · intro tidy
    refine pairwise_append.mpr ⟨h.inOrder tidy.front, h'.inOrder tidy.suffix, ?_⟩
    intro x first y second
    obtain ⟨t, inside, _, high, _⟩ := (h.words x first).place tidy.front
    obtain ⟨u, inside', low, _⟩ := (h'.words y second).place tidy.suffix
    have nonempty := (h.words x first).nonempty tidy.front
    have between := (pairwise_append.mp tidy.inOrder).2.2 t inside u inside'
    omega

/-- Marks belong to the part of the tokens that they stand in. -/
theorem Owned.split {front front' rest spots spots'}
    (owned : Owned m (front ++ front') (spots ++ spots')) (tidy : Tidy (front ++ front' ++ rest))
    (covers : Covers front spots) (covers' : Covers front' spots') :
    Owned m front spots ∧ Owned m front' spots' := by
  have order := (pairwise_append.mp tidy.front.inOrder).2.2
  constructor
  · intro t member p k low high mark
    obtain ⟨x, inside, rfl, same⟩ := owned t (by simp [member]) p k low high mark
    rcases mem_append.mp inside with first | second
    · exact ⟨x, first, rfl, same⟩
    · obtain ⟨u, uMember, uLow, _⟩ := (covers'.words x second).place tidy.front.suffix
      have := order t member u uMember
      omega
  · intro t member p k low high mark
    obtain ⟨x, inside, rfl, same⟩ := owned t (by simp [member]) p k low high mark
    rcases mem_append.mp inside with first | second
    · obtain ⟨u, uMember, _, uHigh, _⟩ := (covers.words x first).place tidy.front.front
      have nonempty := (covers.words x first).nonempty tidy.front.front
      have := order u uMember t member
      omega
    · exact ⟨x, second, rfl, same⟩

theorem Owned.unmarked (owned : Owned m [t] []) (sound : t.Sound) : m t.start = none := by
  cases mark : m t.start with
  | none => rfl
  | some k =>
    obtain ⟨x, member, _⟩ := owned t (by simp) t.start k (Nat.le_refl _) sound.nonempty mark
    cases member

/-- Whether the token ends an operand before it. -/
def Token.isEnd (t : Token) : Bool :=
  t.kind == .punctuator && [",", ")", "]", "\x7d", "+"].contains t.text

theorem Token.cases_of_isEnd (h : t.isEnd = true) : t.kind = .punctuator ∧
    (t.text = "," ∨ t.text = ")" ∨ t.text = "]" ∨ t.text = "\x7d" ∨ t.text = "+") := by
  simpa [isEnd] using h

theorem Token.isPunctuator_iff :
    t.isPunctuator p = true ↔ t.kind = .punctuator ∧ t.text = p := by
  simp [isPunctuator]

theorem Token.isPunctuator_of_isEnd (other : p ∉ [",", ")", "]", "\x7d", "+"])
    (h : t.isEnd = true) : t.isPunctuator p = false := by
  simp only [isEnd, Bool.and_eq_true, contains_eq_mem, decide_eq_true_eq] at h
  simp only [isPunctuator, Bool.and_eq_false_iff, beq_eq_false_iff_ne]
  exact .inr fun same => other (same ▸ h.2)

/-- Tokens that go on with no operand before them. -/
structure Ends (tail : List Token) : Prop where
  head : tail.head?.all isEnd = true
  /-- The brackets that close here are not those of parameters. -/
  noArrow : ∀ depth, (afterClosing? (depth + 1) tail).any
    (·.head?.any (·.isPunctuator "=>")) = false

theorem Ends.nil : Ends [] :=
  ⟨rfl, fun _ => rfl⟩

theorem Ends.head_any {tail} (h : Ends tail) {c : Token → Bool}
    (other : ∀ t, t.isEnd = true → c t = false) : tail.head?.any c = false := by
  have head := h.head
  cases tail with
  | nil => rfl
  | cons t tail => exact other t head

/-- A script that was written into: what stands behind it, and how deep its readers are. -/
structure Copy extends Weaving where
  tail : List Token
  fuel : Nat

/-- What is known of one run of a reader and of the reader of the copy: when the first one succeeds
    before tokens that satisfy `ends`, it has taken a front of the tokens, and then the second one
    succeeds as well, as long as the marks in that front stand on the places found. -/
def FollowsAt {α : Type} [Result α] (ends : List Token → Prop) (c : Copy) (pre : Stage)
    (r r' : Reader α) (post : α → Stage) (s : Stream) : Prop :=
  ∀ a s₁, Tidy s.tokens → r s = .ok (a, s₁) → ends s₁.tokens →
    ∃ front new, s.tokens = front ++ s₁.tokens ∧ (post a).spots = pre.spots ++ new ∧
      Covers front new ∧ Moves front pre.depth (post a).depth ∧
      ∀ s', Owned c.marks front new → Woven c.toWeaving c.tail s.tokens s'.tokens →
        weight s'.tokens + pre.used.toNat ≤ c.fuel →
        ∃ rest, r' s' = .ok (woven c.toWeaving a, ⟨rest, s'.stop⟩) ∧
          Woven c.toWeaving c.tail s₁.tokens rest ∧ weight rest + (post a).used.toNat ≤ c.fuel

def FollowsTo {α : Type} [Result α] (ends : List Token → Prop) (c : Copy) (pre : Stage)
    (r r' : Reader α) (post : α → Stage) : Prop :=
  ∀ s, FollowsAt ends c pre r r' post s

/-- The same for every run, but for those that read to the end of the script while `Q` fails. -/
abbrev Follows {α : Type} [Result α] (c : Copy) (Q : Prop) (pre : Stage) (r r' : Reader α)
    (post : α → Stage) : Prop :=
  FollowsTo (fun rest => rest = [] → Q) c pre r r' post

/-- A phrase of its own behind another token, in brackets of which all but `depth` stay open. -/
abbrev Reads {α : Type} [Result α] (c : Copy) (Q : Prop) (depth : Nat) (r r' : Reader α) : Prop :=
  Follows c Q ⟨[], 1, true⟩ r r' fun a => ⟨spots a, depth, true⟩

/-- A phrase of its own that has a token. -/
abbrev Begins {α : Type} [Result α] (c : Copy) (Q : Prop) (depth : Nat) (r r' : Reader α) : Prop :=
  Follows c Q ⟨[], 1, false⟩ r r' fun a => ⟨spots a, depth, true⟩

/-- A reader that needs a token. -/
def Starved {α : Type} (r : Reader α) : Prop :=
  ∀ stop a s, r ⟨[], stop⟩ ≠ .ok (a, s)

theorem Starved.of {r : Reader α} (fails : ∀ stop, (r ⟨[], stop⟩).toOption = none) :
    Starved r := by
  intro stop a s run
  have none := fails stop
  rw [run] at none
  cases none

theorem Reader.bind_ok {f : α → Reader β} :
    (r >>= f) s = .ok (b, s₂) ↔ ∃ a s₁, r s = .ok (a, s₁) ∧ f a s₁ = .ok (b, s₂) := by
  constructor
  · intro run
    obtain ⟨⟨a, s₁⟩, first, second⟩ := ok_of_bind (x := r s) run
    exact ⟨a, s₁, first, second⟩
  · rintro ⟨a, s₁, first, second⟩
    show (r s >>= fun p => f p.1 p.2) = _
    rw [first]
    exact second

theorem Starved.bind {f : α → Reader β} (h : Starved r) : Starved (r >>= f) := by
  intro stop b s run
  obtain ⟨a, s₁, first, _⟩ := bind_ok.mp run
  exact h stop a s₁ first

/-- One reader after another; the second one may tell what the first one ends before. -/
theorem FollowsAt.bind [Result α] [Result β] {m : List Token → Prop} {r r' : Reader α}
    {f f' : α → Reader β} {mid : α → Stage} {post : β → Stage}
    (first : FollowsAt m c pre r r' mid s) (second : ∀ a s₁, m s₁.tokens →
      FollowsAt ends c (mid a) (f a) (f' (woven c.toWeaving a)) post s₁)
    (after : ∀ a s₁ b s₂, Tidy s.tokens → r s = .ok (a, s₁) → f a s₁ = .ok (b, s₂) →
      ends s₂.tokens → m s₁.tokens) : FollowsAt ends c pre (r >>= f) (r' >>= f') post s := by
  intro b s₂ tidy run ended
  obtain ⟨a, s₁, runR, runF⟩ := bind_ok.mp run
  have met := after a s₁ b s₂ tidy runR runF ended
  obtain ⟨front, new, split, spots, covers, moves, follows⟩ := first a s₁ tidy runR met
  have tidy₁ : Tidy s₁.tokens := by
    rw [split] at tidy
    exact tidy.suffix
  obtain ⟨front', new', split', spots', covers', moves', follows'⟩ :=
    second a s₁ met b s₂ tidy₁ runF ended
  refine ⟨front ++ front', new ++ new', by rw [split, split', append_assoc],
    by rw [spots', spots, append_assoc], covers.append covers', moves.append moves', ?_⟩
  intro s' owned woven light
  rw [split, split', ← append_assoc] at tidy
  obtain ⟨own, own'⟩ := owned.split tidy covers covers'
  obtain ⟨rest, run', woven₁, light₁⟩ := follows s' own woven light
  obtain ⟨rest', run'', woven₂, light₂⟩ := follows' ⟨rest, s'.stop⟩ own' woven₁ light₁
  exact ⟨rest', bind_ok.mpr ⟨_, _, run', run''⟩, woven₂, light₂⟩

theorem FollowsAt.pure [Result α] {post : α → Stage} (same : a' = woven c.toWeaving a)
    (done : post a = pre) : FollowsAt ends c pre (Pure.pure a) (Pure.pure a') post s := by
  intro b s₁ tidy run _
  cases run
  refine ⟨[], [], rfl, by simp [done], .nil _, by rw [done]; exact .nil _, ?_⟩
  intro s' _ woven light
  exact ⟨s'.tokens, by rw [same]; rfl, woven, done ▸ light⟩

/-- Whether a token was read may be forgotten. -/
theorem FollowsAt.relax [Result α] {f : α → List Spot} {b : α → Nat} {v : α → Bool}
    (h : FollowsAt ends c pre r r' (fun a => ⟨f a, b a, true⟩) s) :
    FollowsAt ends c pre r r' (fun a => ⟨f a, b a, v a⟩) s := by
  intro a s₁ tidy run ended
  obtain ⟨front, new, split, spots, covers, moves, follows⟩ := h a s₁ tidy run ended
  refine ⟨front, new, split, spots, covers, moves, fun s' owned woven light => ?_⟩
  obtain ⟨rest, run', woven₁, light₁⟩ := follows s' owned woven light
  exact ⟨rest, run', woven₁, Nat.le_trans (Nat.add_le_add_left (v a).toNat_le _) light₁⟩

namespace FollowsTo

variable {α β : Type} [Result α] [Result β] {r r' : Reader α} {post : β → Stage}

/-- One reader after another. If the first one is only known inside the script, then so is the
    second one, or it needs a token. -/
theorem bindWith (first : Follows c Q pre r r' mid)
    (second : ∀ a, FollowsTo ends c (mid a) (f a) (f' (woven c.toWeaving a)) post)
    (through : (ends [] → Q) ∨ ∀ a, Starved (f a)) :
    FollowsTo ends c pre (r >>= f) (r' >>= f') post := by
  refine fun s => (first s).bind (fun a s₁ _ => second a s₁) fun a s₁ b s₂ _ _ run ended empty => ?_
  obtain ⟨tokens₁, stop₁⟩ := s₁
  cases empty
  rcases through with through | starved
  · obtain ⟨front, _, split, _⟩ := second a ⟨[], stop₁⟩ b s₂ .nil run ended
    obtain ⟨_, none⟩ := append_eq_nil_iff.mp split.symm
    exact through (none ▸ ended)
  · exact absurd run (starved a stop₁ b s₂)

theorem bind (first : Follows c True pre r r' mid)
    (second : ∀ a, FollowsTo ends c (mid a) (f a) (f' (woven c.toWeaving a)) post) :
    FollowsTo ends c pre (r >>= f) (r' >>= f') post :=
  first.bindWith second (.inl fun _ => trivial)

/-- Both readers are only known inside the script. -/
theorem bindInside (first : Follows c Q pre r r' mid)
    (second : ∀ a, Follows c Q (mid a) (f a) (f' (woven c.toWeaving a)) post) :
    Follows c Q pre (r >>= f) (r' >>= f') post :=
  first.bindWith second (.inl fun inside => inside rfl)

/-- The first reader is inside the script because the second one needs a token. -/
theorem bindBefore (first : Follows c Q pre r r' mid)
    (second : ∀ a, FollowsTo ends c (mid a) (f a) (f' (woven c.toWeaving a)) post)
    (starved : ∀ a, Starved (f a)) : FollowsTo ends c pre (r >>= f) (r' >>= f') post :=
  first.bindWith second (.inr starved)

theorem pure {post : α → Stage} (same : a' = woven c.toWeaving a) (done : post a = pre) :
    FollowsTo ends c pre (Pure.pure a) (Pure.pure a') post :=
  fun _ => .pure same done

theorem fail {post} (fails : ∀ s a s₁, r s ≠ .ok (a, s₁)) : FollowsTo ends c pre r r' post :=
  fun s a s₁ _ run => absurd run (fails s a s₁)

theorem map {f f' : α → β} (first : FollowsTo ends c pre r r' mid)
    (same : ∀ a, f' (woven c.toWeaving a) = woven c.toWeaving (f a))
    (done : ∀ a, post (f a) = mid a) : FollowsTo ends c pre (f <$> r) (f' <$> r') post := by
  rw [map_eq_pure_bind, map_eq_pure_bind]
  refine fun s => (first s).bind (fun a s₁ _ => .pure (same a) (done a)) ?_
  intro a s₁ b s₂ _ _ run ended
  cases run
  exact ended

theorem weaken {P post} (h : Follows c P pre r r' post) (le : ends [] → P) :
    FollowsTo ends c pre r r' post :=
  fun s a s₁ tidy run ended => h s a s₁ tidy run fun empty => le (empty ▸ ended)

section Fuel

variable {f : α → List Spot} {b : α → Nat} {post : α → Stage}

theorem refuel (h : FollowsTo ends c ⟨x, d, u⟩ r r' fun a => ⟨f a, b a, v⟩)
    (before : n + u.toNat ≤ c.fuel + u'.toNat) (after : c.fuel + v'.toNat ≤ n + v.toNat) :
    FollowsTo ends { c with fuel := n } ⟨x, d, u'⟩ r r' fun a => ⟨f a, b a, v'⟩ := by
  intro s a s₁ tidy run ended
  obtain ⟨front, new, split, spots, covers, moves, follows⟩ := h s a s₁ tidy run ended
  refine ⟨front, new, split, spots, covers, moves, fun s' owned woven light => ?_⟩
  dsimp only at light before after ⊢
  obtain ⟨rest, run', woven₁, light₁⟩ := follows s' owned woven (by dsimp only; omega)
  exact ⟨rest, run', woven₁, by dsimp only at light₁; omega⟩

theorem begun (h : FollowsTo ends c ⟨x, d, false⟩ r r' fun a => ⟨f a, b a, v⟩) :
    FollowsTo ends c ⟨x, d, u⟩ r r' fun a => ⟨f a, b a, v⟩ :=
  h.refuel (by simp) (Nat.le_refl _)

theorem relax (h : FollowsTo ends c pre r r' fun a => ⟨f a, b a, true⟩) :
    FollowsTo ends c pre r r' fun a => ⟨f a, b a, v⟩ :=
  fun s => (h s).relax

/-- No token can be left of a copy that has no fuel and of which one was read. -/
theorem spent (h : FollowsTo ends c ⟨x, d, true⟩ r r' post) :
    FollowsTo ends { c with fuel := 0 } ⟨x, d, true⟩ r q post := by
  intro s a s₁ tidy run ended
  obtain ⟨front, new, split, spots, covers, moves, _⟩ := h s a s₁ tidy run ended
  refine ⟨front, new, split, spots, covers, moves, fun s' _ _ light => ?_⟩
  dsimp only [Bool.toNat_true] at light
  omega

/-- One level deeper, behind a token. -/
theorem deeper (h : FollowsTo ends c ⟨x, d, false⟩ r r' fun a => ⟨f a, b a, v⟩) :
    FollowsTo ends { c with fuel := c.fuel + 1 } ⟨x, d, true⟩ r r' fun a => ⟨f a, b a, true⟩ :=
  h.refuel (by simp) (by simp)

end Fuel

/-- A phrase of its own after other names, inside other brackets. -/
theorem within {depth u v} (h : Follows c Q ⟨[], 1, u⟩ r r' fun a => ⟨spots a, depth, v⟩) (x d) :
    Follows c Q ⟨x, d + 1, u⟩ r r' fun a => ⟨x ++ spots a, d + depth, v⟩ := by
  intro s a s₁ tidy run ended
  obtain ⟨front, new, split, spots, covers, moves, follows⟩ := h s a s₁ tidy run ended
  refine ⟨front, new, split, by simp [show Result.spots a = new from spots], covers, ?_, follows⟩
  rw [Nat.add_comm d 1, Nat.add_comm d depth]
  exact moves.shift d

end FollowsTo

namespace Reader

theorem peek_bind (f : Option Token → Reader α) (s) : (peek >>= f) s = f s.tokens.head? s := rfl

theorem bind_run {f : α → Reader β} (run : r s = .ok (a, s₁)) : (r >>= f) s = f a s₁ := by
  show (r s >>= fun y => f y.1 y.2) = _
  rw [run]
  rfl

theorem bind_congr {f : α → Reader β} (run : r s = q s₁) : (r >>= f) s = (q >>= f) s₁ := by
  show (r s >>= fun y => f y.1 y.2) = _
  rw [run]
  rfl

theorem isAt_run (p s) : isAt p s = .ok (s.tokens.head?.any (·.isPunctuator p), s) := rfl

theorem eat_run (p s) :
    eat p s = if s.tokens.head?.any (·.isPunctuator p)
      then .ok (true, { s with tokens := s.tokens.tail }) else .ok (false, s) := by
  show (if _ then _ else _ : Reader Bool) s = _
  split <;> rfl

theorem eatWord_run (w s) :
    eatWord w s = if s.tokens.head?.any (·.isWord w)
      then .ok (true, { s with tokens := s.tokens.tail }) else .ok (false, s) := by
  show (if _ then _ else _ : Reader Bool) s = _
  split <;> rfl

theorem unexpected_run (what s s₁) (a : α) : unexpected what s ≠ .ok (a, s₁) := by
  intro run
  obtain ⟨tokens, stop⟩ := s
  cases tokens <;> cases run

theorem eat_of (h : t.isPunctuator p = true) (tokens stop) :
    eat p ⟨t :: tokens, stop⟩ = .ok (true, ⟨tokens, stop⟩) := by
  rw [eat_run, head?_cons, Option.any_some, if_pos h]
  rfl

theorem eat_of_is (h : t.Is .punctuator p newline) (tokens stop) :
    eat p ⟨t :: tokens, stop⟩ = .ok (true, ⟨tokens, stop⟩) :=
  eat_of (isPunctuator_iff.mpr ⟨h.kind, h.text⟩) tokens stop

theorem eat_of_not (h : t.isPunctuator p = false) (tokens stop) :
    eat p ⟨t :: tokens, stop⟩ = .ok (false, ⟨t :: tokens, stop⟩) := by
  rw [eat_run, head?_cons, Option.any_some, h]
  rfl

theorem ifRun (run : ∀ s, eats s = if s.tokens.head?.any q
      then .ok (true, { s with tokens := s.tokens.tail }) else .ok (false, s)) (r f : Reader α) :
    (do if ← eats then r else f) = (do if (← peek).any q then do skip; r else f) := by
  funext s
  show (eats s >>= fun y => (if y.1 = true then r else f) y.2) = _
  rw [peek_bind, run]
  split <;> rfl

theorem ident_run (t tokens stop) :
    ident ⟨t :: tokens, stop⟩ = if t.kind == .word && !isReservedWord t.text
      then .ok (⟨t.text, t.start, t.stop⟩, ⟨tokens, stop⟩)
      else unexpected "identifier" ⟨t :: tokens, stop⟩ := by
  show (if _ then _ else _ : Reader Ident) _ = _
  split <;> rfl

end Reader

/-- A token that is no template literal, in the script that was written into. -/
structure Token.Kept (w : Weaving) (t t' : Token) : Prop where
  kind : t'.kind = t.kind
  newline : t'.newlineBefore = t.newlineBefore
  ident : t'.ident = t.ident.woven w

theorem Token.Kept.text {w t'} (same : t.Kept w t') : t'.text = t.text :=
  congrArg Ident.name same.ident

theorem Token.Woven.inv (h : t.Woven w t') :
    (t.Kept w t' ∧ ∀ bodies, t.kind ≠ .template bodies) ∨
      ∃ bodies bodies', t.kind = .template bodies ∧ t'.kind = .template bodies' ∧
        List.Forall₂ (Body.Woven w) bodies bodies' := by
  obtain ⟨_, kind, newline, ident, _⟩ := h
  obtain ⟨k, _⟩ := t
  obtain ⟨k', _⟩ := t'
  cases kind with
  | same plain => exact .inl ⟨⟨rfl, newline, ident plain⟩, plain⟩
  | template each => exact .inr ⟨_, _, rfl, rfl, each⟩

/-- A test on the next token that sees only its kind, its text and the line break before it, and
    that neither a template literal nor the word `_ctx` passes. -/
structure Tests (q : Token → Bool) : Prop where
  same : ∀ t t' : Token, t'.kind = t.kind → t'.text = t.text → t'.newlineBefore = t.newlineBefore →
    q t' = q t
  template : ∀ t bodies, t.kind = .template bodies → q t = false
  context : ∀ t, t.kind = .word → t.text = "_ctx" → q t = false

theorem Tests.kept (tests : Tests q) (same : t.Kept w t') : q t' = q t :=
  tests.same t t' same.kind same.text same.newline

namespace Woven

variable {tail : List Token}

theorem any_head (h : Woven w tail tokens tokens') (tests : Tests q)
    (apart : tokens = [] → tail.head?.any q = false) (passes : tokens'.head?.any q = true) :
    tokens.head?.any q = true := by
  cases h with
  | nil => rw [apart rfl] at passes; cases passes
  | keep same rest =>
    simp only [head?_cons, Option.any_some] at passes ⊢
    rcases same.inv with ⟨kept, _⟩ | ⟨_, _, _, template, _⟩
    · rwa [tests.kept kept] at passes
    · rw [tests.template _ _ template] at passes
      cases passes
  | context mark kind free isCtx =>
    simp only [head?_cons, Option.any_some] at passes
    rw [tests.context _ isCtx.kind isCtx.text] at passes
    cases passes
  | property mark kind free isKey =>
    simp only [head?_cons, Option.any_some] at passes ⊢
    rwa [← tests.same _ _ (isKey.kind.trans kind.symm) isKey.text isKey.newline]

section

variable (h : Woven w tail (t :: tokens) tokens')
include h

theorem kept (unmarked : w.marks t.start = none) (plain : ∀ bodies, t.kind ≠ .template bodies) :
    ∃ t' rest', tokens' = t' :: rest' ∧ t.Kept w t' ∧ Woven w tail tokens rest' := by
  cases h with
  | @keep _ t' _ rest' same rest =>
    rcases same.inv with ⟨kept, _⟩ | ⟨_, _, template, _⟩
    · exact ⟨t', rest', rfl, kept, rest⟩
    · exact absurd template (plain _)
  | context mark => rw [unmarked] at mark; cases mark
  | property mark => rw [unmarked] at mark; cases mark

/-- What stands in the place of a token that is no template literal: the token, or a word. -/
theorem plain_head
    (plain : ∀ bodies, t.kind ≠ .template bodies) : ∃ t' rest', tokens' = t' :: rest' ∧
      (t.Kept w t' ∧ Woven w tail tokens rest' ∨ t'.kind = .word) := by
  cases h with
  | @keep _ t' _ rest' same rest =>
    rcases same.inv with ⟨kept, _⟩ | ⟨_, _, template, _⟩
    · exact ⟨t', rest', rfl, .inl ⟨kept, rest⟩⟩
    · exact absurd template (plain _)
  | context mark kind free isCtx => exact ⟨_, _, rfl, .inr isCtx.kind⟩
  | property mark kind free isKey => exact ⟨_, _, rfl, .inr isKey.kind⟩

theorem template_head (kind : t.kind = .template bodies) :
    ∃ t' rest' bodies', tokens' = t' :: rest' ∧ t'.kind = .template bodies' := by
  cases h with
  | keep same =>
    rcases same.inv with ⟨_, plain⟩ | ⟨_, _, _, kind', _⟩
    · exact absurd kind (plain bodies)
    · exact ⟨_, _, _, rfl, kind'⟩
  | context mark word => rw [kind] at word; cases word
  | property mark word => rw [kind] at word; cases word

theorem unmarked
    (other : t.kind = .word → isReservedWord t.text = true) : w.marks t.start = none := by
  cases h with
  | keep same => exact same.unmarked
  | context _ kind free => simp [other kind] at free
  | property _ kind free => simp [other kind] at free

end

variable (h : Woven w tail tokens tokens') (tests : Tests q)
  (other : ∀ t, q t = true → t.kind = .word → isReservedWord t.text = true)
include h tests other

/-- What passes a test that no name passes is still there. -/
theorem head_any
    (passes : tokens.head?.any q = true) : tokens'.head?.any q = true := by
  cases tokens with
  | nil => cases passes
  | cons t tokens =>
    have passes : q t = true := passes
    have plain : ∀ bodies, t.kind ≠ .template bodies := by
      intro bodies template
      rw [tests.template _ _ template] at passes
      cases passes
    obtain ⟨t', rest', rfl, kept, _⟩ := h.kept (h.unmarked (other t passes)) plain
    exact (tests.kept kept).trans passes

theorem any_head_eq (apart : tokens = [] → tail.head?.any q = false) :
    tokens'.head?.any q = tokens.head?.any q := by
  rw [Bool.eq_iff_iff]
  exact ⟨h.any_head tests apart, h.head_any tests other⟩

end Woven

theorem Token.isPunctuator_of_ne (other : t.kind ≠ .punctuator) : t.isPunctuator p = false := by
  simp [isPunctuator, other]

theorem Tests.of {q : Token → Bool} (same : ∀ t, q t = q ⟨t.kind, t.text, 0, t.newlineBefore⟩)
    (template : ∀ bodies text newline, q ⟨.template bodies, text, 0, newline⟩ = false)
    (context : ∀ newline, q ⟨.word, "_ctx", 0, newline⟩ = false) : Tests q := by
  refine ⟨fun t t' kind text newline => ?_, fun t bodies kind => ?_, fun t kind text => ?_⟩
  · rw [same, kind, text, newline, ← same]
  · rw [same, kind, template]
  · rw [same, kind, text, context]

theorem tests_isPunctuator (p) : Tests (·.isPunctuator p) :=
  .of (fun _ => rfl) (fun _ _ _ => rfl) fun _ => rfl

theorem tests_punctuators (texts : List String) :
    Tests fun t => t.kind == .punctuator && texts.contains t.text :=
  .of (fun _ => rfl) (fun _ _ _ => rfl) fun _ => rfl

theorem tests_isWord (other : word ≠ "_ctx") : Tests (·.isWord word) :=
  .of (fun _ => rfl) (fun _ _ _ => rfl) fun _ => by simp [isWord, Ne.symm other]

theorem Token.isWord_of_isEnd (word) (h : t.isEnd = true) : t.isWord word = false := by
  simp [isWord, (cases_of_isEnd h).1]

/-- The next word is the reserved one in both scripts or in neither. -/
theorem Woven.any_reserved {w tail word tokens tokens'} (h : Woven w tail tokens tokens')
    (stop : Ends tail) (reserved : isReservedWord word = true) :
    tokens'.head?.any (·.isWord word) = tokens.head?.any (·.isWord word) := by
  have other : word ≠ "_ctx" := by
    rintro rfl
    exact absurd reserved (by decide)
  refine h.any_head_eq (tests_isWord other) (fun t passes _ => ?_)
    fun _ => stop.head_any fun t => t.isWord_of_isEnd word
  simp only [isWord, Bool.and_eq_true, beq_iff_eq] at passes
  rw [passes.2, reserved]

/-- The number of open brackets after a punctuator. -/
theorem opening (bracket : p ∈ ["(", "[", "\x7b"]) (d : Nat) (t : Token)
    (h : t.isPunctuator p = true) : Moves [t] (d + 1) (d + 2) := by
  apply moves_opening
  rw [isPunctuator_iff] at h
  simp [isOpening, h, bracket]

theorem closing (bracket : p ∈ [")", "]", "\x7d"]) (d) (t : Token) (h : t.isPunctuator p = true) :
    Moves [t] (d + 1) d := by
  apply moves_closing
  rw [isPunctuator_iff] at h
  simp [isClosing, h, bracket]

theorem plain (other : p ∉ ["(", "[", "\x7b", ")", "]", "\x7d"]) (d) (t : Token)
    (h : t.isPunctuator p = true) : Moves [t] (d + 1) (d + 1) := by
  rw [isPunctuator_iff] at h
  simp only [mem_cons, not_or] at other
  apply moves_plain <;> simp [isOpening, isClosing, h, other]

/-- One token that names nothing is read first. -/
theorem FollowsAt.step [Result α] {b r r' f g} {post : α → Stage} {tokens stop}
    (plain : ∀ bodies, t.kind ≠ .template bodies) (effect : Moves [t] pre.depth b)
    (here : r ⟨t :: tokens, stop⟩ = f ⟨tokens, stop⟩)
    (here' : ∀ t' tokens' stop', t.Kept c.toWeaving t' →
      Woven c.toWeaving c.tail tokens tokens' → r' ⟨t' :: tokens', stop'⟩ = g ⟨tokens', stop'⟩)
    (rest : FollowsAt ends c ⟨pre.spots, b, true⟩ f g post ⟨tokens, stop⟩) :
    FollowsAt ends c pre r r' post ⟨t :: tokens, stop⟩ := by
  intro a s₁ tidy run ended
  rw [here] at run
  obtain ⟨front, new, split, spots, covers, moves, follows⟩ := rest a s₁ tidy.tail run ended
  refine ⟨t :: front, new, by simp [show tokens = front ++ s₁.tokens from split], spots, ?_,
    effect.append moves, ?_⟩
  · exact (Covers.nil [t]).append covers
  · rintro ⟨tokens', stop'⟩ owned woven light
    have tidy₂ : Tidy ([t] ++ front ++ s₁.tokens) := by
      rwa [append_assoc, ← show tokens = front ++ s₁.tokens from split]
    obtain ⟨own, own'⟩ := @Owned.split c.marks [t] front s₁.tokens [] new owned tidy₂ (.nil _) covers
    obtain ⟨t', rest', rfl, same, woven'⟩ :=
      woven.kept (own.unmarked (tidy.sound t (by simp))) plain
    have lighter := weight_lt_cons t' rest'
    rw [here' t' rest' stop' same woven']
    exact follows ⟨rest', stop'⟩ own' woven' (by dsimp only [Bool.toNat_true] at light ⊢; omega)

/-- The readers may be chosen by what comes next. -/
theorem FollowsAt.choose [Result α] {g : Stream → Reader α} {post : α → Stage}
    (h : ∀ s', FollowsAt ends c pre f (g s') post s) (here : r s = f s)
    (here' : ∀ s', (s.tokens = [] → ends []) → Woven c.toWeaving c.tail s.tokens s'.tokens →
      r' s' = g s' s') : FollowsAt ends c pre r r' post s := by
  intro a s₁ tidy run ended
  rw [here] at run
  obtain ⟨front, new, split, spots, covers, moves, _⟩ := h s a s₁ tidy run ended
  refine ⟨front, new, split, spots, covers, moves, fun s' owned woven light => ?_⟩
  rw [here' s' (fun empty => ?_) woven]
  · obtain ⟨front', new', split', spots', _, _, follows⟩ := h s' a s₁ tidy run ended
    obtain rfl : front' = front := append_cancel_right (split'.symm.trans split)
    obtain rfl : new' = new := append_cancel_left (spots'.symm.trans spots)
    exact follows s' owned woven light
  · obtain ⟨_, none⟩ := append_eq_nil_iff.mp (split.symm.trans empty)
    exact none ▸ ended

theorem FollowsAt.congr [Result α] {post : α → Stage} (h : FollowsAt ends c pre f g post s)
    (here : r s = f s)
    (here' : ∀ s', (s.tokens = [] → ends []) → Woven c.toWeaving c.tail s.tokens s'.tokens →
      r' s' = g s') : FollowsAt ends c pre r r' post s :=
  .choose (fun _ => h) here here'

theorem moves_word (kind : t.kind = .word) (d) : Moves [t] (d + 1) (d + 1) :=
  moves_plain (by simp [isOpening, kind]) (by simp [isClosing, kind]) d

namespace FollowsTo

variable {α β : Type} [Result α] [Result β] {r r' f f' : Reader α}

/-- A test on the next token that comes out the same. -/
theorem ifPeek {q : Option Token → Bool}
    (same : ∀ t tokens tokens', Woven c.toWeaving c.tail (t :: tokens) tokens' →
      q tokens'.head? = q (some t))
    (apart : ends [] → q c.tail.head? = q none) (passed : FollowsTo ends c pre r r' post)
    (other : FollowsTo ends c pre f f' post) :
    FollowsTo ends c pre (do if q (← peek) then r else f)
      (do if q (← peek) then r' else f') post := by
  rintro ⟨tokens, stop⟩
  have sameHead : ∀ s' : Stream, (tokens = [] → ends []) →
      Woven c.toWeaving c.tail tokens s'.tokens → q s'.tokens.head? = q tokens.head? := by
    rintro ⟨tokens', stop'⟩ ended woven
    cases tokens with
    | nil =>
      cases woven
      exact apart (ended rfl)
    | cons t tokens => exact same t tokens _ woven
  by_cases passes : q tokens.head? = true
  · refine (passed _).congr ?_ fun s' ended woven => ?_
    · rw [peek_bind, if_pos passes]
    · rw [peek_bind, if_pos (by rwa [sameHead s' ended woven])]
  · refine (other _).congr ?_ fun s' ended woven => ?_
    · rw [peek_bind, if_neg passes]
    · rw [peek_bind, if_neg (by rwa [sameHead s' ended woven])]

/-- A token that passes a test is passed over. What stands behind the script does not pass, or
    there is something to read. -/
theorem ifSkip (tests : Tests q) (apart : (ends [] → c.tail.head?.any q = false) ∨ Starved f)
    (effect : ∀ t, q t = true → Moves [t] (d + 1) b)
    (passed : FollowsTo ends c ⟨x, b, true⟩ r r' post)
    (other : FollowsTo ends c ⟨x, d + 1, u⟩ f f' post) :
    FollowsTo ends c ⟨x, d + 1, u⟩ (do if (← peek).any q then do skip; r else f)
      (do if (← peek).any q then do skip; r' else f') post := by
  rintro ⟨tokens, stop⟩
  by_cases passes : tokens.head?.any q = true
  · cases tokens with
    | nil => cases passes
    | cons t tokens =>
      have passes : q t = true := passes
      refine .step (f := r) (g := r') (fun bodies template => ?_) (effect t passes) ?_ ?_ (passed _)
      · rw [tests.template _ _ template] at passes
        cases passes
      · rw [peek_bind, head?_cons, Option.any_some, if_pos passes]
        rfl
      · intro t' tokens' stop' same _
        rw [peek_bind, head?_cons, Option.any_some, if_pos ((tests.kept same).trans passes)]
        rfl
  · intro a s₁ tidy run
    have starts : tokens = [] → ¬Starved f := by
      rintro rfl starved
      exact starved stop a s₁ (by rwa [peek_bind, if_neg passes] at run)
    refine (other _).congr ?_ (fun s' ended woven => ?_) a s₁ tidy run
    · rw [peek_bind, if_neg passes]
    · rw [peek_bind, if_neg fun passes' => passes (woven.any_head tests (fun empty => ?_) passes')]
      exact (apart.resolve_right (starts empty)) (ended empty)

/-- A punctuator that is read if it comes next. -/
theorem ifEatWith (apart : (ends [] → c.tail.head?.any (·.isPunctuator p) = false) ∨ Starved f)
    (effect : ∀ t : Token, t.isPunctuator p = true → Moves [t] (d + 1) b)
    (eaten : FollowsTo ends c ⟨x, b, true⟩ r r' post) (other : FollowsTo ends c ⟨x, d + 1, u⟩ f f' post) :
    FollowsTo ends c ⟨x, d + 1, u⟩ (do if ← eat p then r else f)
      (do if ← eat p then r' else f') post := by
  rw [ifRun (eat_run p), ifRun (eat_run p)]
  exact ifSkip (tests_isPunctuator p) apart effect eaten other

/-- A punctuator that leaves the open brackets as they are. -/
theorem ifEat (stop : Ends c.tail) (other : p ∉ ["(", "[", "\x7b", ")", "]", "\x7d", ",", "+"])
    (eaten : FollowsTo ends c ⟨x, d + 1, true⟩ r r' post)
    (rest : FollowsTo ends c ⟨x, d + 1, u⟩ f f' post) :
    FollowsTo ends c ⟨x, d + 1, u⟩ (do if ← eat p then r else f)
      (do if ← eat p then r' else f') post :=
  ifEatWith (.inl fun _ => stop.head_any fun _ => isPunctuator_of_isEnd (by simp_all))
    (plain (by simp_all) d) eaten rest

theorem ifOpen (stop : Ends c.tail) (bracket : p ∈ ["(", "[", "\x7b"])
    (opened : FollowsTo ends c ⟨x, d + 2, true⟩ r r' post)
    (rest : FollowsTo ends c ⟨x, d + 1, u⟩ f f' post) :
    FollowsTo ends c ⟨x, d + 1, u⟩ (do if ← eat p then r else f)
      (do if ← eat p then r' else f') post := by
  refine ifEatWith (.inl fun _ => stop.head_any fun _ => isPunctuator_of_isEnd ?_)
    (opening bracket d) opened rest
  rintro further
  simp only [mem_cons, not_mem_nil, or_false] at bracket
  rcases bracket with rfl | rfl | rfl <;> simp at further

/-- The bracket that ends a list, before more of the list. -/
theorem ifClose (starved : Starved f) (bracket : p ∈ [")", "]", "\x7d"])
    (closed : FollowsTo ends c ⟨x, d, true⟩ r r' post)
    (rest : FollowsTo ends c ⟨x, d + 1, u⟩ f f' post) :
    FollowsTo ends c ⟨x, d + 1, u⟩ (do if ← eat p then r else f)
      (do if ← eat p then r' else f') post :=
  ifEatWith (.inr starved) (closing bracket d) closed rest

theorem ifComma (apart : (ends [] → c.tail.head?.any (·.isPunctuator ",") = false) ∨ Starved f)
    (eaten : FollowsTo ends c ⟨x, d + 1, true⟩ r r' post)
    (rest : FollowsTo ends c ⟨x, d + 1, u⟩ f f' post) :
    FollowsTo ends c ⟨x, d + 1, u⟩ (do if ← eat "," then r else f)
      (do if ← eat "," then r' else f') post :=
  ifEatWith apart (plain (by simp) d) eaten rest

section

variable (stop : Ends c.tail) (other : p ∉ ["(", "[", "\x7b", ")", "]", "\x7d", ",", "+"])
include stop other

/-- A token that may be there or not. -/
theorem optional :
    FollowsTo ends c ⟨x, d + 1, u⟩ (eat p) (eat p) (fun _ => ⟨x, d + 1, u⟩) :=
  ifSkip (tests_isPunctuator p)
    (.inl fun _ => stop.head_any fun _ => isPunctuator_of_isEnd (by simp_all))
    (plain (by simp_all) d) (.relax (.pure rfl rfl)) (.pure rfl rfl)

/-- One of two punctuators that is read if it comes next. -/
theorem ifEatEither (other' : q ∉ ["(", "[", "\x7b", ")", "]", "\x7d", ",", "+"])
    (eaten : FollowsTo ends c ⟨x, d + 1, true⟩ r r' post)
    (rest : FollowsTo ends c ⟨x, d + 1, u⟩ f f' post) :
    FollowsTo ends c ⟨x, d + 1, u⟩ (do if ← eatEither p q then r else f)
      (do if ← eatEither p q then r' else f') post := by
  have unfold : ∀ r f : Reader α, (do if ← eatEither p q then r else f) =
      (do if ← eat p then r else if ← eat q then r else f) := by
    intro r f
    unfold eatEither
    rw [bind_assoc]
    congr 1
    funext found
    cases found <;> rfl
  rw [unfold, unfold]
  exact ifEat stop other eaten (ifEat stop other' eaten rest)

end

omit [Result α] in
/-- A choice inside a reader, before what comes next. -/
theorem join {q q' : Reader Bool} {a a' b b'} {f f' : α → Reader β} {post}
    (h : FollowsTo ends c pre ((do if ← q then a else b) >>= f)
      ((do if ← q' then a' else b') >>= f') post) :
    FollowsTo ends c pre (do if ← q then a >>= f else b >>= f)
      (do if ← q' then a' >>= f' else b' >>= f') post := by
  have join : ∀ (q : Reader Bool) (a b : Reader α) (f : α → Reader β),
      ((do if ← q then a else b) >>= f) = (do if ← q then a >>= f else b >>= f) := by
    intro q a b f
    rw [bind_assoc]
    congr 1
    funext found
    cases found <;> rfl
  rwa [join, join] at h

theorem expect (effect : ∀ t : Token, t.isPunctuator p = true → Moves [t] (d + 1) b) :
    FollowsTo ends c ⟨x, d + 1, u⟩ (expect p) (expect p) (fun _ => ⟨x, b, true⟩) :=
  ifEatWith (f := unexpected _) (.inr (.of fun _ => rfl)) effect (.pure rfl rfl)
    (.fail fun s u s₁ => unexpected_run _ s s₁ u)

/-- A reader that needs a token, token by token. -/
theorem ofCons (starved : Starved r)
    (each : ∀ t tokens stop, FollowsAt ends c pre r r' post ⟨t :: tokens, stop⟩) :
    FollowsTo ends c pre r r' post := by
  rintro ⟨tokens, stop⟩
  cases tokens with
  | nil => exact fun a s₁ _ run => absurd run (starved stop a s₁)
  | cons t tokens => exact each t tokens stop

theorem separated {close : String} (more : FollowsTo ends c ⟨x, d + 1, true⟩ r r' post) :
    FollowsTo ends c ⟨x, d + 1, true⟩ (separated close r) (separated close r') post := by
  refine ofCons (.of fun _ => rfl) fun t tokens stop => ?_
  have comma : FollowsTo ends c ⟨x, d + 1, true⟩ (do Reader.expect ","; r) (do Reader.expect ","; r')
      post := (expect (plain (by simp) d)).bind fun _ => more
  have sameClose (s' : Stream) (woven : Woven c.toWeaving c.tail (t :: tokens) s'.tokens) :
      s'.tokens.head?.any (·.isPunctuator close) = t.isPunctuator close :=
    woven.any_head_eq (tests_isPunctuator close)
      (fun t passes word => by simp [isPunctuator, word] at passes) (by simp)
  by_cases closes : t.isPunctuator close = true
  · refine (more _).congr ?_ fun s' _ woven => ?_
    · exact congrFun (if_pos closes) _
    · exact congrFun (if_pos ((sameClose s' woven).trans closes)) _
  · refine (comma _).congr ?_ fun s' _ woven => ?_
    · exact congrFun (if_neg closes) _
    · exact congrFun (if_neg (by rwa [sameClose s' woven])) _

/-- The end of a script that nothing stands behind. -/
theorem ifAtEnd (alone : (ends [] → c.tail = []) ∨ Starved r)
    (ended : FollowsTo ends c ⟨x, d, u⟩ r r' post) (other : FollowsTo ends c ⟨x, d, u⟩ f f' post) :
    FollowsTo ends c ⟨x, d, u⟩ (do if ← atEnd then r else f)
      (do if ← atEnd then r' else f') post := by
  rintro ⟨tokens, stop⟩
  cases tokens with
  | nil =>
    rcases alone with alone | starved
    · refine (ended _).congr rfl fun s' inside woven => ?_
      obtain ⟨tokens', stop'⟩ := s'
      obtain rfl : tokens' = [] := by
        cases woven
        exact alone (inside rfl)
      rfl
    · exact fun a s₁ _ run => absurd run (starved stop a s₁)
  | cons t tokens =>
    refine (other _).congr rfl fun s' _ woven => ?_
    obtain ⟨tokens', stop'⟩ := s'
    cases woven <;> rfl

/-- A word that is read if it comes next. -/
theorem ifEatWord (stop : Ends c.tail) (other : word ≠ "_ctx")
    (eaten : FollowsTo ends c ⟨x, d + 1, true⟩ r r' post)
    (rest : FollowsTo ends c ⟨x, d + 1, u⟩ f f' post) :
    FollowsTo ends c ⟨x, d + 1, u⟩ (do if ← eatWord word then r else f)
      (do if ← eatWord word then r' else f') post := by
  rw [ifRun (eatWord_run word), ifRun (eatWord_run word)]
  refine ifSkip (tests_isWord other) (.inl fun _ => ?_)
    (fun t passes => moves_word (by simp_all [isWord]) d) eaten rest
  exact stop.head_any fun t => t.isWord_of_isEnd word

theorem ident : FollowsTo ends c ⟨x, d + 1, u⟩ ident ident (fun _ => ⟨x, d + 1, true⟩) := by
  refine ofCons (.of fun _ => rfl) fun t tokens stop => ?_
  by_cases name : (t.kind == .word && !isReservedWord t.text) = true
  · have word : t.kind = .word := by simp_all
    refine .step (f := Pure.pure t.ident) (g := Pure.pure (t.ident.woven c.toWeaving))
      (by simp [word]) (moves_word word d) ?_ ?_ (.pure rfl rfl)
    · rw [ident_run, if_pos name]
      rfl
    · intro t' tokens' stop' same _
      rw [ident_run, if_pos (by rwa [same.kind, same.text]), ← same.ident]
      rfl
  · intro a s₁ _ run
    rw [ident_run, if_neg name] at run
    exact absurd run (unexpected_run _ _ _ _)

end FollowsTo

end Stencil.Script
