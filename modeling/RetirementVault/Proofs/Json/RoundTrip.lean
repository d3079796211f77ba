import RetirementVault.Proofs.Json.Lexing

/-!
# A tree is read back from its own text

Writing goes from a tree to characters in one sweep; reading goes through tokens, which is where
the two meet. `tokens` is what a tree comes to between the two:

* `cuts_write`: what is written for a tree is cut into its tokens, whatever the layout;
* `foldlM_tokens`: taking in the tokens of a tree leads from "a value is wanted" to "this value
  has been read", whatever is open around it.

Both are inductions on the tree with its lists of items and members, and `ofBytes?_text_append`
puts one behind the other. A tree has to be `Writable`: a text that spells no string is written as
an empty one, and a numeral that breaks the grammar would be read as something else or not at all.
-/

set_option autoImplicit false

namespace RetirementVault
namespace Json

/-! ## The tokens of a tree -/

mutual

/-- The tokens a tree is written with. -/
def tokens : Json → List Token
  | .null => [.null]
  | .bool b => [.bool b]
  | .num n => [.num n]
  | .str s => [.str s]
  | .arr [] => [.openArr, .closeArr]
  | .arr (v :: vs) => .openArr :: (tokens v ++ (itemTokens vs ++ [.closeArr]))
  | .obj [] => [.openObj, .closeObj]
  | .obj ((n, v) :: ms) =>
    .openObj :: .str n :: .colon :: (tokens v ++ (memberTokens ms ++ [.closeObj]))

def itemTokens : List Json → List Token
  | [] => []
  | v :: vs => .comma :: (tokens v ++ itemTokens vs)

def memberTokens : List (Option String × Json) → List Token
  | [] => []
  | (n, v) :: ms => .comma :: .str n :: .colon :: (tokens v ++ memberTokens ms)

end

mutual

/-- A tree of which nothing is lost when it is written. -/
def Writable : Json → Prop
  | .num n => n.WellFormed
  | .str s => s.isSome = true
  | .arr vs => ItemsWritable vs
  | .obj ms => MembersWritable ms
  | .null | .bool _ => True

def ItemsWritable : List Json → Prop
  | [] => True
  | v :: vs => Writable v ∧ ItemsWritable vs

def MembersWritable : List (Option String × Json) → Prop
  | [] => True
  | (n, v) :: ms => n.isSome = true ∧ Writable v ∧ MembersWritable ms

end

/-! ## From characters to tokens -/

theorem Cuts.word {c : Char} {cs : List Char} {t : Token} {s : Source} {ts : List Token}
    (hc : isGap c = false) (ht : readToken c (cs.map some ++ s) = some (t, s)) (hs : Cuts s ts) :
    Cuts ((c :: cs).map some ++ s) (t :: ts) := by
  refine .token hc ht ?_ hs
  show s.length ≤ (cs.map some ++ s).length
  rw [List.length_append]
  exact Nat.le_add_left _ _

/-- A name in quotes, as it stands in an object. -/
theorem Cuts.name {n : Option String} (hn : n.isSome = true) {s : Source} {ts : List Token}
    (hs : Cuts s ts) : Cuts ((Json.quote (n.getD "")).map some ++ s) (.str n :: ts) := by
  cases n with
  | none => exact absurd hn (by decide)
  | some x => exact .quote hs

/-- After a value of an array stands a comma or the end of the array, and neither goes on with a
number. -/
theorem ends_items (l : Layout) (depth : Nat) (vs : List Json) {s : Source} (hs : Ends s) :
    Ends ((writeItems l depth vs).map some ++ s) := by
  cases vs with
  | nil =>
    rw [writeItems]
    exact hs
  | cons v vs =>
    simp only [writeItems, List.cons_append, List.map_cons]
    exact ends_cons (by decide) _

theorem ends_members (l : Layout) (depth : Nat) (ms : List (Option String × Json)) {s : Source}
    (hs : Ends s) : Ends ((writeMembers l depth ms).map some ++ s) := by
  cases ms with
  | nil =>
    rw [writeMembers]
    exact hs
  | cons m ms =>
    simp only [writeMembers, List.cons_append, List.map_cons]
    exact ends_cons (by decide) _

mutual

/-- **What is written for a tree is cut into the tokens of the tree**, and reading goes on behind
it. -/
theorem cuts_write (l : Layout) (depth : Nat) : ∀ (v : Json), v.Writable →
    ∀ {s : Source} {ts : List Token}, Ends s → Cuts s ts →
      Cuts ((write l depth v).map some ++ s) (v.tokens ++ ts)
  | .null, _, _, _, _, hs => by
    rw [write, tokens]
    exact .word rfl rfl hs
  | .bool true, _, _, _, _, hs => by
    rw [write, tokens]
    exact .word rfl rfl hs
  | .bool false, _, _, _, _, hs => by
    rw [write, tokens]
    exact .word rfl rfl hs
  | .num n, h, _, _, hend, hs => by
    rw [Writable] at h
    rw [write, tokens]
    exact .numeral h hend hs
  | .str x, h, _, _, _, hs => by
    rw [Writable] at h
    rw [write, tokens]
    exact .name h hs
  | .arr [], _, _, _, _, hs => by
    rw [write, tokens]
    exact .mark (c := '[') rfl rfl (.mark (c := ']') rfl rfl hs)
  | .arr (v :: vs), h, s, ts, _, hs => by
    rw [Writable, ItemsWritable] at h
    have hclose : Cuts ((l.newline depth).map some ++ some ']' :: s) (.closeArr :: ts) :=
      .newline l depth (.mark rfl rfl hs)
    have hend : Ends ((l.newline depth).map some ++ some ']' :: s) :=
      .newline l depth (ends_cons (by decide) _)
    have hitems := cuts_writeItems l (depth + 1) vs h.2 hend hclose
    have hfirst := cuts_write l (depth + 1) v h.1 (ends_items l (depth + 1) vs hend) hitems
    have hopen := Cuts.mark (c := '[') rfl rfl (hfirst.newline l (depth + 1))
    rw [write, tokens]
    simpa only [List.map_cons, List.map_append, List.map_nil, List.cons_append, List.append_assoc,
      List.nil_append] using hopen
  | .obj [], _, _, _, _, hs => by
    rw [write, tokens]
    exact .mark (c := '\x7b') rfl rfl (.mark (c := '\x7d') rfl rfl hs)
  | .obj ((n, v) :: ms), h, s, ts, _, hs => by
    rw [Writable, MembersWritable] at h
    have hclose : Cuts ((l.newline depth).map some ++ some '\x7d' :: s) (.closeObj :: ts) :=
      .newline l depth (.mark rfl rfl hs)
    have hend : Ends ((l.newline depth).map some ++ some '\x7d' :: s) :=
      .newline l depth (ends_cons (by decide) _)
    have hmembers := cuts_writeMembers l (depth + 1) ms h.2.2 hend hclose
    have hfirst := cuts_write l (depth + 1) v h.2.1 (ends_members l (depth + 1) ms hend) hmembers
    have hname := Cuts.name h.1 (hfirst.colon (l := l))
    have hopen := Cuts.mark (c := '\x7b') rfl rfl (hname.newline l (depth + 1))
    rw [write, tokens]
    simpa only [List.map_cons, List.map_append, List.map_nil, List.cons_append, List.append_assoc,
      List.nil_append] using hopen

theorem cuts_writeItems (l : Layout) (depth : Nat) : ∀ (vs : List Json), ItemsWritable vs →
    ∀ {s : Source} {ts : List Token}, Ends s → Cuts s ts →
      Cuts ((writeItems l depth vs).map some ++ s) (itemTokens vs ++ ts)
  | [], _, _, _, _, hs => by
    rw [writeItems, itemTokens]
    exact hs
  | v :: vs, h, s, ts, hend, hs => by
    rw [ItemsWritable] at h
    have hrest := cuts_writeItems l depth vs h.2 hend hs
    have hfirst := cuts_write l depth v h.1 (ends_items l depth vs hend) hrest
    have hcomma := Cuts.mark (c := ',') rfl rfl (hfirst.newline l depth)
    rw [writeItems, itemTokens]
    simpa only [List.map_cons, List.map_append, List.cons_append, List.append_assoc] using hcomma

theorem cuts_writeMembers (l : Layout) (depth : Nat) : ∀ (ms : List (Option String × Json)),
    MembersWritable ms → ∀ {s : Source} {ts : List Token}, Ends s → Cuts s ts →
      Cuts ((writeMembers l depth ms).map some ++ s) (memberTokens ms ++ ts)
  | [], _, _, _, _, hs => by
    rw [writeMembers, memberTokens]
    exact hs
  | (n, v) :: ms, h, s, ts, hend, hs => by
    rw [MembersWritable] at h
    have hrest := cuts_writeMembers l depth ms h.2.2 hend hs
    have hfirst := cuts_write l depth v h.2.1 (ends_members l depth ms hend) hrest
    have hname := Cuts.name h.1 (hfirst.colon (l := l))
    have hcomma := Cuts.mark (c := ',') rfl rfl (hname.newline l depth)
    rw [writeMembers, memberTokens]
    simpa only [List.map_cons, List.map_append, List.cons_append, List.append_assoc] using hcomma

end

/-! ## From tokens to the tree -/

/-- A value begins with a token, and not with the end of an array, so it is read where an array
may end as it is read elsewhere. -/
theorem tokens_cons (v : Json) : ∃ t ts, v.tokens = t :: ts ∧ t ≠ .closeArr := by
  match v with
  | .null | .bool _ | .num _ | .str _ => exact ⟨_, [], by rw [tokens], by simp⟩
  | .arr [] | .obj [] | .arr (_ :: _) | .obj (_ :: _) =>
    exact ⟨_, _, by rw [tokens], by simp⟩

theorem step_valueOrEnd {t : Token} (ht : t ≠ .closeArr) (frames : List Frame) :
    State.step ⟨.valueOrEnd, .items [] :: frames⟩ t
      = State.step ⟨.value, .items [] :: frames⟩ t := by
  cases t with
  | closeArr => exact absurd rfl ht
  | openArr | openObj | closeObj | comma | colon | null => rfl
  | bool b => rfl
  | num n => rfl
  | str s => rfl

mutual

/-- **Taking in the tokens of a tree reads that tree**, whatever is open around it. -/
theorem foldlM_tokens : ∀ (v : Json) (frames : List Frame) (ts : List Token),
    (v.tokens ++ ts).foldlM State.step ⟨.value, frames⟩
      = ts.foldlM State.step ⟨.after v, frames⟩
  | .null, _, _ | .bool _, _, _ | .num _, _, _ | .str _, _, _ | .arr [], _, _
  | .obj [], _, _ => by
    rw [tokens]
    rfl
  | .arr (v :: vs), frames, ts => by
    obtain ⟨t, rest, htokens, ht⟩ := tokens_cons v
    have hfirst := foldlM_tokens v (.items [] :: frames) (itemTokens vs ++ .closeArr :: ts)
    have hitems := foldlM_itemTokens vs [] v frames ts
    rw [htokens] at hfirst
    rw [tokens, htokens]
    simp only [List.cons_append, List.append_assoc, List.nil_append, List.foldlM_cons]
      at hfirst ⊢
    -- The first item is read where the array could have ended as well.
    show State.step ⟨.valueOrEnd, .items [] :: frames⟩ t >>= _ = _
    rw [step_valueOrEnd ht, hfirst]
    exact hitems
  | .obj ((n, v) :: ms), frames, ts => by
    have hfirst :=
      foldlM_tokens v (.named n :: .members [] :: frames) (memberTokens ms ++ .closeObj :: ts)
    have hmembers := foldlM_memberTokens ms [] n v frames ts
    rw [tokens]
    simp only [List.cons_append, List.append_assoc, List.nil_append]
    exact hfirst.trans hmembers

theorem foldlM_itemTokens : ∀ (vs read : List Json) (v : Json) (frames : List Frame)
    (ts : List Token),
    (itemTokens vs ++ .closeArr :: ts).foldlM State.step ⟨.after v, .items read :: frames⟩
      = ts.foldlM State.step ⟨.after (.arr (read.reverse ++ v :: vs)), frames⟩
  | [], read, v, frames, ts => by
    rw [itemTokens, ← List.reverse_cons]
    rfl
  | w :: vs, read, v, frames, ts => by
    have hfirst := foldlM_tokens w (.items (v :: read) :: frames)
      (itemTokens vs ++ .closeArr :: ts)
    have hrest := foldlM_itemTokens vs (v :: read) w frames ts
    rw [itemTokens]
    simp only [List.cons_append, List.append_assoc, List.reverse_cons, List.nil_append]
      at hrest ⊢
    exact hfirst.trans hrest

theorem foldlM_memberTokens : ∀ (ms read : List (Option String × Json)) (n : Option String)
    (v : Json) (frames : List Frame) (ts : List Token),
    (memberTokens ms ++ .closeObj :: ts).foldlM State.step
        ⟨.after v, .named n :: .members read :: frames⟩
      = ts.foldlM State.step ⟨.after (.obj (read.reverse ++ (n, v) :: ms)), frames⟩
  | [], read, n, v, frames, ts => by
    rw [memberTokens, ← List.reverse_cons]
    rfl
  | (k, w) :: ms, read, n, v, frames, ts => by
    have hfirst := foldlM_tokens w (.named k :: .members ((n, v) :: read) :: frames)
      (memberTokens ms ++ .closeObj :: ts)
    have hrest := foldlM_memberTokens ms ((n, v) :: read) k w frames ts
    rw [memberTokens]
    simp only [List.cons_append, List.append_assoc, List.reverse_cons, List.nil_append]
      at hrest ⊢
    exact hfirst.trans hrest

end

theorem ofTokens?_tokens (v : Json) : ofTokens? v.tokens = some v := by
  have h := foldlM_tokens v [] []
  rw [List.append_nil] at h
  rw [ofTokens?, h]
  rfl

/-- **A tree is read back from its own text**, with or without blanks behind it. -/
theorem ofBytes?_text_append (l : Layout) {v : Json} (h : v.Writable) {blanks : String}
    (hblanks : ∀ c ∈ blanks.toList, isGap c = true) :
    ofBytes? (Text.Utf8.encode (v.text l ++ blanks)) = some v := by
  have hrest : Cuts (blanks.toList.map some ++ []) [] := .gaps hblanks .done
  have hcuts := cuts_write l 0 v h (ends_gaps hblanks ends_nil) hrest
  rw [List.append_nil, List.append_nil, ← List.map_append] at hcuts
  rw [ofBytes?, ofSource?, Text.Utf8.decode_encode, text, String.toList_append,
    String.toList_ofList, tokens?_of_cuts hcuts, Option.bind_some, ofTokens?_tokens]

/-- A tree is read back from its own text, in either layout. -/
theorem ofBytes?_text (l : Layout) {v : Json} (h : v.Writable) :
    ofBytes? (Text.Utf8.encode (v.text l)) = some v := by
  have hread : ofBytes? (Text.Utf8.encode (v.text l ++ "")) = some v :=
    ofBytes?_text_append l h (by simp)
  rwa [String.append_empty] at hread

end Json
end RetirementVault
