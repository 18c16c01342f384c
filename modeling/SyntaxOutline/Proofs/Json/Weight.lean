import SyntaxOutline.Json.Text

/-! # Weight of JSON values

The weight of a value counts the values in it and the characters of its strings. A text has at least
as many characters as the value read from it weighs, since every token takes up at least its weight.
-/
namespace SyntaxOutline

namespace Json

mutual

/-- Number of values, and of the characters in strings. -/
def weight : Json → Nat
  | .string text => (text.map String.length).getD 0 + 1
  | .array items => itemsWeight items + 1
  | .object fields => fieldsWeight fields + 1
  | _ => 1

def itemsWeight : List Json → Nat
  | [] => 0
  | item :: rest => weight item + itemsWeight rest

def fieldsWeight : List (Option String × Json) → Nat
  | [] => 0
  | (_, value) :: rest => weight value + fieldsWeight rest

end

theorem weight_pos (value : Json) : 0 < value.weight := by
  cases value <;> simp [weight]

theorem itemsWeight_append (items more : List Json) :
    itemsWeight (items ++ more) = itemsWeight items + itemsWeight more := by
  induction items with
  | nil => simp [itemsWeight]
  | cons item rest ih => simp [itemsWeight, ih, Nat.add_assoc]

theorem itemsWeight_reverse (items : List Json) :
    itemsWeight items.reverse = itemsWeight items := by
  induction items with
  | nil => rfl
  | cons item rest ih =>
    rw [List.reverse_cons, itemsWeight_append, ih]
    simp only [itemsWeight]
    omega

theorem fieldsWeight_append (fields more : List (Option String × Json)) :
    fieldsWeight (fields ++ more) = fieldsWeight fields + fieldsWeight more := by
  induction fields with
  | nil => simp [fieldsWeight]
  | cons field rest ih => simp [fieldsWeight, ih, Nat.add_assoc]

theorem fieldsWeight_reverse (fields : List (Option String × Json)) :
    fieldsWeight fields.reverse = fieldsWeight fields := by
  induction fields with
  | nil => rfl
  | cons field rest ih =>
    rw [List.reverse_cons, fieldsWeight_append, ih]
    simp only [fieldsWeight]
    omega

theorem weight_le_itemsWeight {item : Json} {items : List Json} (h : item ∈ items) :
    item.weight ≤ itemsWeight items := by
  induction items with
  | nil => cases h
  | cons first rest ih =>
    rw [itemsWeight]
    rcases List.mem_cons.1 h with rfl | h
    · omega
    · have := ih h
      omega

theorem weight_le_fieldsWeight {name : Option String} {value : Json}
    {fields : List (Option String × Json)} (h : (name, value) ∈ fields) :
    value.weight ≤ fieldsWeight fields := by
  induction fields with
  | nil => cases h
  | cons first rest ih =>
    obtain ⟨firstName, firstValue⟩ := first
    rw [fieldsWeight]
    rcases List.mem_cons.1 h with heq | h
    · cases heq
      omega
    · have := ih h
      omega

namespace Token

def weight : Token → Nat
  | string text => (text.map String.length).getD 0 + 1
  | word value => value.weight
  | _ => 1

theorem weight_mark? {c : Char} {token : Token} (h : mark? c = some token) : token.weight = 1 := by
  unfold mark? at h
  split at h <;> cases h <;> rfl

theorem weight_word? {text : List Char} {token : Token} (h : word? text = some token) :
    token.weight = 1 := by
  unfold word? at h
  split at h
  next => simp [← Option.some.inj h, weight, Json.weight]
  next => simp [← Option.some.inj h, weight, Json.weight]
  next => simp [← Option.some.inj h, weight, Json.weight]
  next =>
    obtain ⟨value, _, rfl⟩ := Option.map_eq_some_iff.1 h
    rfl

/-- The weight of tokens together. -/
def weights : List Token → Nat
  | [] => 0
  | token :: rest => token.weight + weights rest

theorem weights_append (tokens more : List Token) :
    weights (tokens ++ more) = weights tokens + weights more := by
  induction tokens with
  | nil => simp [weights]
  | cons token rest ih => simp [weights, ih, Nat.add_assoc]

theorem weights_reverse (tokens : List Token) : weights tokens.reverse = weights tokens := by
  induction tokens with
  | nil => rfl
  | cons token rest ih =>
    rw [List.reverse_cons, weights_append, ih]
    simp only [weights]
    omega

end Token

end Json

theorem Quoted.length_of_assemble {pieces : List Quoted.Piece} {text assembled : List Char}
    (h : assemble pieces text = some assembled) :
    assembled.length ≤ pieces.length + text.length := by
  fun_induction assemble pieces text with
  | case1 text => simp [← Option.some.inj h]
  | case2 text c rest ih => grind
  | case3 text low high rest hpair ih => grind
  | case4 text low high rest hpair hsurrogate => cases h
  | case5 text low high rest hpair hsurrogate ih => grind
  | case6 text low rest hrest hsurrogate => cases h
  | case7 text low rest hrest hsurrogate ih => grind

namespace Json

namespace Scanner

def insideWeight : Scanning → Nat
  | .gap => 0
  | .word _ => 1
  | .quoted seen => seen.length + 1
  | .escape seen => seen.length + 1
  | .unit seen _ _ => seen.length + 1

/-- The weight of the tokens found, and at least that of the one that is being read. -/
def weight (s : Scanner) : Nat := Token.weights s.found + insideWeight s.inside

theorem weight_start (found : List Token) (c : Char) :
    (start found c).weight ≤ Token.weights found + 1 := by
  unfold start
  split
  · simp [weight, insideWeight]
  · split
    · simp [weight, insideWeight]
    · split
      next token htoken =>
        have hone := Token.weight_mark? htoken
        simp only [weight, insideWeight, Token.weights]
        omega
      next => simp [weight, insideWeight]

theorem weight_quoted (seen : List Quoted.Piece) :
    Token.weight (.string ((Quoted.assemble seen []).map String.ofList)) ≤ seen.length + 1 := by
  cases h : Quoted.assemble seen [] with
  | none => simp [Token.weight]
  | some text =>
    have hlength := Quoted.length_of_assemble h
    simpa [Token.weight] using hlength

theorem weight_step {s s' : Scanner} {c : Char} (h : s.step c = some s') :
    s'.weight ≤ s.weight + 1 := by
  obtain ⟨found, inside⟩ := s
  cases inside with
  | gap =>
    obtain rfl := Option.some.inj h
    exact weight_start found c
  | word seen =>
    simp only [step] at h
    split at h
    · obtain ⟨token, htoken, rfl⟩ := Option.map_eq_some_iff.1 h
      have hone := Token.weight_word? htoken
      have hstart := weight_start (token :: found) c
      have hbefore : weight ⟨found, .word seen⟩ = Token.weights found + 1 := rfl
      simp only [Token.weights] at hstart
      omega
    · obtain rfl := Option.some.inj h
      simp [weight, insideWeight]
  | quoted seen =>
    have hquoted := weight_quoted seen
    simp only [step] at h
    split at h
    · obtain rfl := Option.some.inj h
      simp only [weight, insideWeight, Token.weights]
      omega
    · split at h
      · obtain rfl := Option.some.inj h
        simp [weight, insideWeight]
      · split at h
        · cases h
        · obtain rfl := Option.some.inj h
          simp only [weight, insideWeight, List.length_cons]
          omega
  | escape seen =>
    simp only [step] at h
    split at h
    · obtain rfl := Option.some.inj h
      simp [weight, insideWeight]
    · obtain ⟨value, _, rfl⟩ := Option.map_eq_some_iff.1 h
      simp only [weight, insideWeight, List.length_cons]
      omega
  | unit seen digitsLeft value =>
    obtain ⟨digit, _, rfl⟩ := Option.map_eq_some_iff.1 h
    cases digitsLeft with
    | zero =>
      simp only [weight, insideWeight, List.length_cons]
      omega
    | succ left => simp [weight, insideWeight]

theorem weight_run {s s' : Scanner} {text : List Char} (h : text.foldlM step s = some s') :
    s'.weight ≤ s.weight + text.length := by
  induction text generalizing s with
  | nil =>
    obtain rfl := Option.some.inj h
    simp
  | cons c rest ih =>
    rw [List.foldlM_cons] at h
    obtain ⟨mid, hmid, hrest⟩ := Option.bind_eq_some_iff.1 h
    have hstep := weight_step hmid
    have hrun := ih hrest
    rw [List.length_cons]
    omega

theorem weight_finish {s : Scanner} {tokens : List Token} (h : s.finish = some tokens) :
    Token.weights tokens ≤ s.weight := by
  obtain ⟨found, inside⟩ := s
  cases inside with
  | gap =>
    obtain rfl := Option.some.inj h
    simp [weight, insideWeight, Token.weights_reverse]
  | word seen =>
    obtain ⟨token, htoken, rfl⟩ := Option.map_eq_some_iff.1 h
    have hone := Token.weight_word? htoken
    rw [Token.weights_reverse]
    simp only [weight, insideWeight, Token.weights]
    omega
  | quoted seen => cases h
  | escape seen => cases h
  | unit seen digitsLeft value => cases h

end Scanner

theorem weights_scan {text : List Char} {tokens : List Token} (h : scan text = some tokens) :
    Token.weights tokens ≤ text.length := by
  obtain ⟨s, hrun, hfinish⟩ := Option.bind_eq_some_iff.1 h
  have hweight := Scanner.weight_run hrun
  have hend := Scanner.weight_finish hfinish
  simp only [Scanner.weight, Scanner.insideWeight, Token.weights] at hweight hend
  omega

namespace Reader

def frameWeight : Frame → Nat
  | .array items => itemsWeight items + 1
  | .object fields _ => fieldsWeight fields + 1

def stackWeight : List Frame → Nat
  | [] => 0
  | frame :: below => frameWeight frame + stackWeight below

def awaitingWeight : Awaiting → Nat
  | .value => 0
  | .firstItem => 0
  | .firstName => 1
  | .name fields => fieldsWeight fields + 1
  | .colon fields _ => fieldsWeight fields + 1
  | .ended value => value.weight

/-- The weight of what has been read. -/
def weight (r : Reader) : Nat := stackWeight r.stack + awaitingWeight r.awaiting

theorem weight_startValue {stack : List Frame} {token : Token} {r : Reader}
    (h : startValue stack token = some r) : r.weight ≤ stackWeight stack + token.weight := by
  unfold startValue at h
  split at h <;> cases h <;>
    simp [weight, stackWeight, frameWeight, awaitingWeight, itemsWeight, Token.weight,
      Json.weight, Nat.add_comm]

theorem weight_endValue {stack : List Frame} {value : Json} {token : Token} {r : Reader}
    (h : endValue stack value token = some r) :
    r.weight ≤ stackWeight stack + value.weight := by
  unfold endValue at h
  split at h <;> cases h <;>
    simp [weight, stackWeight, frameWeight, awaitingWeight, itemsWeight, fieldsWeight,
      Json.weight, itemsWeight_append, fieldsWeight_append, itemsWeight_reverse,
      fieldsWeight_reverse] <;>
    omega

theorem weight_step {r r' : Reader} {token : Token} (h : r.step token = some r') :
    r'.weight ≤ r.weight + token.weight := by
  obtain ⟨stack, awaiting⟩ := r
  unfold step at h
  simp only at h
  split at h
  next => exact weight_startValue h
  next =>
    split at h
    next =>
      cases h
      simp [weight, stackWeight, frameWeight, awaitingWeight, Json.weight, itemsWeight_reverse]
      omega
    next => cases h
  next => exact weight_startValue h
  next =>
    cases h
    simp [weight, awaitingWeight, Json.weight, fieldsWeight]
  next =>
    cases h
    simp [weight, awaitingWeight, fieldsWeight]
  next =>
    cases h
    simp [weight, awaitingWeight]
  next =>
    cases h
    simp [weight, stackWeight, frameWeight, awaitingWeight]
    omega
  next =>
    have hend := weight_endValue h
    simp only [weight, awaitingWeight] at hend ⊢
    omega
  next => cases h

theorem weight_run {r r' : Reader} {tokens : List Token} (h : tokens.foldlM step r = some r') :
    r'.weight ≤ r.weight + Token.weights tokens := by
  induction tokens generalizing r with
  | nil =>
    obtain rfl := Option.some.inj h
    simp [Token.weights]
  | cons token rest ih =>
    rw [List.foldlM_cons] at h
    obtain ⟨mid, hmid, hrest⟩ := Option.bind_eq_some_iff.1 h
    have hstep := weight_step hmid
    have hrun := ih hrest
    rw [Token.weights]
    omega

theorem weight_finish {r : Reader} {value : Json} (h : r.finish = some value) :
    value.weight ≤ r.weight := by
  unfold finish at h
  split at h
  next value' hstack hawaiting =>
    obtain rfl := Option.some.inj h
    simp [weight, hstack, hawaiting, stackWeight, awaitingWeight]
  next => cases h

end Reader

theorem weight_ofTokens {tokens : List Token} {value : Json} (h : ofTokens tokens = some value) :
    value.weight ≤ Token.weights tokens := by
  obtain ⟨r, hrun, hfinish⟩ := Option.bind_eq_some_iff.1 h
  have hweight := Reader.weight_run hrun
  have hend := Reader.weight_finish hfinish
  simp only [Reader.weight, Reader.stackWeight, Reader.awaitingWeight] at hweight hend
  omega

/-- A value weighs no more than its text has characters. -/
theorem weight_parse {text : String} {value : Json} (h : parse text = some value) :
    value.weight ≤ text.length := by
  obtain ⟨tokens, hscan, htokens⟩ := Option.bind_eq_some_iff.1 h
  have hscanned := weights_scan hscan
  have hread := weight_ofTokens htokens
  rw [String.length_toList] at hscanned
  omega

end Json

end SyntaxOutline
