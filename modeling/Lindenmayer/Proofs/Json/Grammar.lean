import Lindenmayer.Json.Reader

/-! The grammar of documents: what a text has to be to be that of a tree. Each relation is between
a text and what is left of it after a part. Places are no matter of the grammar, nor is the double
that a numeral is read as; apart from these, a text is that of one tree at most. -/
namespace Lindenmayer.Json
open Reading (isBlank)

/-- Characters of a kind, any number of them. -/
inductive Run (kind : Char → Bool) : List Char → List Char → Prop
  | none (rest : List Char) : Run kind rest rest
  | more {c : Char} {cs rest : List Char} : kind c = true → Run kind cs rest →
      Run kind (c :: cs) rest

abbrev Blanks : List Char → List Char → Prop := Run isBlank

def Digits (cs rest : List Char) : Prop :=
  ∃ c ds, cs = c :: ds ∧ c.isDigit = true ∧ Run Char.isDigit ds rest

/-- A zero alone, or digits that do not begin with one. -/
def Whole (cs rest : List Char) : Prop := cs = '0' :: rest ∨ cs.head? ≠ some '0' ∧ Digits cs rest

def Fraction (cs rest : List Char) : Prop := cs = rest ∨ ∃ ds, cs = '.' :: ds ∧ Digits ds rest

def Exponent (cs rest : List Char) : Prop :=
  cs = rest ∨ ∃ ds es, (cs = 'e' :: ds ∨ cs = 'E' :: ds) ∧
    (ds = es ∨ ds = '+' :: es ∨ ds = '-' :: es) ∧ Digits es rest

def Numeral (cs rest : List Char) : Prop :=
  ∃ ds es fs, (cs = ds ∨ cs = '-' :: ds) ∧ Whole ds es ∧ Fraction es fs ∧ Exponent fs rest

/-- A code unit of four hexadecimal digits. -/
def CodeUnit (n : Nat) (cs rest : List Char) : Prop :=
  ∃ a b c d w x y z, cs = a :: b :: c :: d :: rest ∧ hexDigit? a = some w ∧ hexDigit? b = some x ∧
    hexDigit? c = some y ∧ hexDigit? d = some z ∧ n = ((w * 16 + x) * 16 + y) * 16 + z

def shortEscapes : List (Char × Char) :=
  [('"', '"'), ('\\', '\\'), ('/', '/'), ('b', '\x08'), ('f', '\x0c'), ('n', '\n'), ('r', '\r'),
    ('t', '\t')]

/-- A character as it is written after a backslash: by a mark, by its code unit, or by the two
surrogates of its code point. -/
inductive Escape : Char → List Char → List Char → Prop
  | short {mark c : Char} {rest : List Char} : shortEscapes.lookup mark = some c →
      Escape c (mark :: rest) rest
  | unit {n : Nat} {cs rest : List Char} : CodeUnit n cs rest → n < 0xD800 ∨ 0xDFFF < n →
      Escape (Char.ofNat n) ('u' :: cs) rest
  | pair {high low : Nat} {cs ds rest : List Char} : CodeUnit high cs ('\\' :: 'u' :: ds) →
      CodeUnit low ds rest → 0xD800 ≤ high ∧ high ≤ 0xDBFF → 0xDC00 ≤ low ∧ low ≤ 0xDFFF →
      Escape (Char.ofNat ((high - 0xD800) * 0x400 + (low - 0xDC00) + 0x10000)) ('u' :: cs) rest

/-- The characters of a text as they are written, up to its closing quote and with it. -/
inductive Quoted : List Char → List Char → List Char → Prop
  | close (rest : List Char) : Quoted [] ('"' :: rest) rest
  | plain {c : Char} {s cs rest : List Char} : c ≠ '"' → c ≠ '\\' → 0x20 ≤ c.toNat →
      Quoted s cs rest → Quoted (c :: s) (c :: cs) rest
  | escaped {c : Char} {s cs ds rest : List Char} : Escape c cs ds → Quoted s ds rest →
      Quoted (c :: s) ('\\' :: cs) rest

/-- What stands before an item or a member: blanks, with a comma among them unless it is the
first. -/
def Separated (first : Bool) (cs rest : List Char) : Prop :=
  if first then Blanks cs rest else ∃ ds, Blanks cs (',' :: ds) ∧ Blanks ds rest

mutual

/-- The text of a value. -/
def Node.Written : Node → List Char → List Char → Prop
  | .null _, cs, rest => cs = 'n' :: 'u' :: 'l' :: 'l' :: rest
  | .boolean true _, cs, rest => cs = 't' :: 'r' :: 'u' :: 'e' :: rest
  | .boolean false _, cs, rest => cs = 'f' :: 'a' :: 'l' :: 's' :: 'e' :: rest
  | .number _ _, cs, rest => Numeral cs rest
  | .text s _, cs, rest => ∃ ds, cs = '"' :: ds ∧ Quoted s.toList ds rest
  | .list _ items, cs, rest => ∃ ds, cs = '[' :: ds ∧ items.Written true ds rest
  | .object _ members, cs, rest => ∃ ds, cs = '\x7b' :: ds ∧ members.Written true ds rest
  | .broken _, _, _ => False

/-- The text of the rest of a list, up to its bracket and with it. -/
def Items.Written : Items → Bool → List Char → List Char → Prop
  | .closed _, _, cs, rest => Blanks cs (']' :: rest)
  | .item _ value more, first, cs, rest => ∃ ds es, Separated first cs ds ∧ value.Written ds es ∧
      more.Written false es rest
  | .stuck _ _ _, _, _, _ => False

/-- The text of the rest of an object, up to its brace and with it. -/
def Members.Written : Members → Bool → List Char → List Char → Prop
  | .closed _, _, cs, rest => Blanks cs ('\x7d' :: rest)
  | .member _ key _ value more, first, cs, rest => ∃ ds es fs gs hs,
      Separated first cs ('"' :: ds) ∧ Quoted key.toList ds es ∧ Blanks es (':' :: fs) ∧
      Blanks fs gs ∧ value.Written gs hs ∧ more.Written false hs rest
  | .stuck _ _, _, _, _ => False

end

/-- A text is a document of a value: there are blanks around it and nothing else. -/
def Node.IsDocument (n : Node) (text : String) : Prop :=
  ∃ cs rest, Blanks text.toList cs ∧ n.Written cs rest ∧ Blanks rest []

mutual

/-- A value without what is no matter of the grammar. -/
def Node.bare : Node → Node
  | .null _ => .null .start
  | .boolean b _ => .boolean b .start
  | .number _ _ => .number (.integer 0) .start
  | .text s _ => .text s .start
  | .list _ items => .list .start items.bare
  | .object _ members => .object .start members.bare
  | .broken f => .broken f

def Items.bare : Items → Items
  | .closed _ => .closed .start
  | .item _ value rest => .item .start value.bare rest.bare
  | .stuck _ next close => .stuck .start next close

def Members.bare : Members → Members
  | .closed _ => .closed .start
  | .member _ key _ value rest => .member .start key .start value.bare rest.bare
  | .stuck _ f => .stuck .start f

end

section Unambiguous
variable {cs ds rest left : List Char}

/-- A text does not go on with a character of a kind. -/
def Stops (kind : Char → Bool) (cs : List Char) : Prop := ∀ c ∈ cs.head?, kind c = false

theorem stops_cons {kind : Char → Bool} {c : Char} (h : kind c = false) (cs : List Char) :
    Stops kind (c :: cs) := by
  rintro _ ⟨⟩
  exact h

theorem Run.trans {kind : Char → Bool} {es : List Char} (h : Run kind cs ds) (k : Run kind ds es) :
    Run kind cs es := by
  induction h with
  | none => exact k
  | more hc _ ih => exact .more hc (ih k)

theorem Run.mono {kind other : Char → Bool} (hk : ∀ c, kind c = true → other c = true)
    (h : Run kind cs rest) : Run other cs rest := by
  induction h with
  | none rest => exact .none rest
  | more hc _ ih => exact .more (hk _ hc) ih

/-- A run that goes as far as it can ends in one place. -/
theorem Run.unique {kind : Char → Bool} (h : Run kind cs rest) (k : Run kind cs left)
    (hs : Stops kind rest) (ks : Stops kind left) : rest = left := by
  induction h with
  | none rest =>
    cases k with
    | none => rfl
    | more hc _ => exact absurd (hs _ rfl) (by simp [hc])
  | more hc _ ih =>
    cases k with
    | none => exact absurd (ks _ rfl) (by simp [hc])
    | more _ k => exact ih k hs

/-- The characters that numerals are made of. -/
def isNumeric (c : Char) : Bool :=
  c.isDigit || c == '-' || c == '+' || c == '.' || c == 'e' || c == 'E'

theorem Digits.run (h : Digits cs rest) : Run isNumeric cs rest := by
  obtain ⟨c, ds, rfl, hc, hr⟩ := h
  have hd : ∀ c, Char.isDigit c = true → isNumeric c = true := by simp +contextual [isNumeric]
  exact .more (hd c hc) (hr.mono hd)

theorem Numeral.run (h : Numeral cs rest) : Run isNumeric cs rest := by
  obtain ⟨ds, es, fs, hs, hw, hf, he⟩ := h
  have hw : Run isNumeric ds es := by
    rcases hw with rfl | ⟨_, hd⟩
    · exact .more rfl (.none es)
    · exact hd.run
  have hf : Run isNumeric es fs := by
    rcases hf with rfl | ⟨gs, rfl, hd⟩
    · exact .none es
    · exact .more rfl hd.run
  have he : Run isNumeric fs rest := by
    rcases he with rfl | ⟨gs, hs, rfl | rfl, rfl | rfl | rfl, hd⟩
    · exact .none fs
    · exact .more rfl hd.run
    · exact .more rfl (.more rfl hd.run)
    · exact .more rfl (.more rfl hd.run)
    · exact .more rfl hd.run
    · exact .more rfl (.more rfl hd.run)
    · exact .more rfl (.more rfl hd.run)
  have hn := hw.trans (hf.trans he)
  rcases hs with rfl | rfl
  · exact hn
  · exact .more rfl hn

/-- A numeral begins with a sign or a digit. -/
theorem Numeral.head (h : Numeral cs rest) :
    ∃ c ds, cs = c :: ds ∧ (c = '-' ∨ c.isDigit = true) := by
  obtain ⟨ds, es, fs, hs, hw, -⟩ := h
  rcases hs with rfl | rfl
  · rcases hw with rfl | ⟨_, c, gs, rfl, hc, -⟩
    · exact ⟨'0', es, rfl, .inr rfl⟩
    · exact ⟨c, gs, rfl, .inr hc⟩
  · exact ⟨'-', ds, rfl, .inl rfl⟩

theorem CodeUnit.unique {n m : Nat} (h : CodeUnit n cs rest) (k : CodeUnit m cs left) :
    n = m ∧ rest = left := by
  obtain ⟨a, b, c, d, w, x, y, z, rfl, hw, hx, hy, hz, rfl⟩ := h
  obtain ⟨_, _, _, _, w', x', y', z', he, hw', hx', hy', hz', rfl⟩ := k
  cases he
  cases hw.symm.trans hw'
  cases hx.symm.trans hx'
  cases hy.symm.trans hy'
  cases hz.symm.trans hz'
  exact ⟨rfl, rfl⟩

private theorem lookup_shortEscapes_u : shortEscapes.lookup 'u' = none := rfl

theorem Escape.unique {c d : Char} (h : Escape c cs rest) (k : Escape d cs left) :
    c = d ∧ rest = left := by
  cases h with
  | short hm =>
    cases k with
    | short km => exact ⟨Option.some.inj (hm.symm.trans km), rfl⟩
    | unit | pair => cases lookup_shortEscapes_u.symm.trans hm
  | unit hu hn =>
    cases k with
    | short km => cases lookup_shortEscapes_u.symm.trans km
    | unit ku =>
      obtain ⟨rfl, rfl⟩ := hu.unique ku
      exact ⟨rfl, rfl⟩
    | pair ku _ kn =>
      obtain ⟨rfl, -⟩ := hu.unique ku
      omega
  | pair hu hl hn hm =>
    cases k with
    | short km => cases lookup_shortEscapes_u.symm.trans km
    | unit ku kn =>
      obtain ⟨rfl, -⟩ := hu.unique ku
      omega
    | pair ku kl =>
      obtain ⟨rfl, he⟩ := hu.unique ku
      cases he
      obtain ⟨rfl, rfl⟩ := hl.unique kl
      exact ⟨rfl, rfl⟩

theorem Quoted.unique {s t : List Char} (h : Quoted s cs rest) (k : Quoted t cs left) :
    s = t ∧ rest = left := by
  induction h generalizing t with
  | close rest =>
    cases k with
    | close => exact ⟨rfl, rfl⟩
    | plain hq => exact absurd rfl hq
  | plain hq hb _ _ ih =>
    cases k with
    | close => exact absurd rfl hq
    | plain _ _ _ k =>
      obtain ⟨rfl, rfl⟩ := ih k
      exact ⟨rfl, rfl⟩
    | escaped => exact absurd rfl hb
  | escaped he _ ih =>
    cases k with
    | plain _ hb => exact absurd rfl hb
    | escaped ke k =>
      obtain ⟨rfl, rfl⟩ := he.unique ke
      obtain ⟨rfl, rfl⟩ := ih k
      exact ⟨rfl, rfl⟩

theorem isNumeric_of_isBlank {c : Char} (h : isBlank c = true) : isNumeric c = false := by
  simp only [isBlank, Bool.or_eq_true, beq_iff_eq] at h
  rcases h with ((rfl | rfl) | rfl) | rfl <;> rfl

/-- What a numeral stops at may stand after blanks. -/
theorem Run.stops (h : Blanks cs rest) (hs : Stops isNumeric rest) : Stops isNumeric cs := by
  cases h with
  | none => exact hs
  | more hc _ => exact stops_cons (isNumeric_of_isBlank hc) _

/-- The characters that the text of a value may begin with. -/
def Node.opens : Node → Char → Bool
  | .null _, c => c == 'n'
  | .boolean true _, c => c == 't'
  | .boolean false _, c => c == 'f'
  | .number _ _, c => c == '-' || c.isDigit
  | .text _ _, c => c == '"'
  | .list _ _, c => c == '['
  | .object _ _, c => c == '\x7b'
  | .broken _, _ => false

theorem Node.Written.head {n : Node} (h : n.Written cs rest) :
    ∃ c ds, cs = c :: ds ∧ n.opens c = true := by
  cases n with
  | null => exact ⟨_, _, h, rfl⟩
  | boolean b => cases b <;> exact ⟨_, _, h, rfl⟩
  | number =>
    obtain ⟨c, ds, rfl, hc⟩ := Numeral.head h
    exact ⟨c, ds, rfl, by simpa [opens] using hc⟩
  | text | list | object =>
    obtain ⟨ds, rfl, -⟩ := h
    exact ⟨_, ds, rfl, rfl⟩
  | broken => exact h.elim

/-- No value begins with a blank or a mark of separation. -/
theorem Node.opens_eq_false {c : Char} (h : isBlank c = true ∨ c = ',' ∨ c = ']') (n : Node) :
    n.opens c = false := by
  simp only [isBlank, Bool.or_eq_true, beq_iff_eq] at h
  cases n with
  | boolean b => cases b <;> rcases h with (((rfl | rfl) | rfl) | rfl) | rfl | rfl <;> rfl
  | _ => rcases h with (((rfl | rfl) | rfl) | rfl) | rfl | rfl <;> rfl

/-- The kinds of values that the first character of a text tells apart. -/
inductive Kind where
  | null
  | boolean (value : Bool)
  | number
  | text
  | list
  | object
  | broken

def Node.kind : Node → Kind
  | .null _ => .null
  | .boolean b _ => .boolean b
  | .number _ _ => .number
  | .text _ _ => .text
  | .list _ _ => .list
  | .object _ _ => .object
  | .broken _ => .broken

/-- The kind of the values that begin with a character, if any do. -/
def Kind.ofFirst : Char → Kind
  | 'n' => .null
  | 't' => .boolean true
  | 'f' => .boolean false
  | '"' => .text
  | '[' => .list
  | '\x7b' => .object
  | _ => .number

theorem Node.kind_eq_of_opens {n : Node} {c : Char} (h : n.opens c = true) :
    n.kind = Kind.ofFirst c := by
  rcases n with p | ⟨_ | _, p⟩ | ⟨x, p⟩ | ⟨s, p⟩ | ⟨p, is⟩ | ⟨p, ms⟩ | f <;>
    simp only [opens, beq_iff_eq, Bool.or_eq_true, Bool.false_eq_true] at h
  case number =>
    unfold Kind.ofFirst
    split <;> first | rfl | simp at h
  all_goals subst h; rfl

theorem Node.Written.kind_eq {n m : Node} (h : n.Written cs rest) (k : m.Written cs left) :
    n.kind = m.kind := by
  obtain ⟨c, ds, rfl, hc⟩ := h.head
  obtain ⟨_, _, he, kc⟩ := k.head
  cases he
  rw [kind_eq_of_opens hc, kind_eq_of_opens kc]

theorem Node.Written.stops {n : Node} (h : n.Written cs rest) : Stops isBlank cs := by
  obtain ⟨c, ds, rfl, hc⟩ := h.head
  refine stops_cons (Bool.eq_false_iff.mpr fun hb => ?_) ds
  rw [n.opens_eq_false (.inl hb)] at hc
  cases hc

/-- The end of a list or an object is no place for what stands before an item or a member. -/
theorem Separated.ne_closing {first : Bool} {stop : Char} (h : Separated first cs ds)
    (hd : Stops isBlank ds) (hs : ds.head? ≠ some stop) (hb : isBlank stop = false)
    (hc : stop ≠ ',') : ¬ Blanks cs (stop :: rest) := by
  intro k
  cases first with
  | true => exact hs (h.unique k hd (stops_cons hb rest) ▸ rfl)
  | false =>
    obtain ⟨es, he, -⟩ := h
    cases he.unique k (stops_cons rfl es) (stops_cons hb rest)
    exact hc rfl

theorem Separated.unique {first : Bool} (h : Separated first cs rest) (k : Separated first cs left)
    (hs : Stops isBlank rest) (ks : Stops isBlank left) : rest = left := by
  cases first with
  | true => exact Run.unique h k hs ks
  | false =>
    obtain ⟨ds, hd, hr⟩ := h
    obtain ⟨es, ke, kr⟩ := k
    cases hd.unique ke (stops_cons rfl ds) (stops_cons rfl es)
    exact hr.unique kr hs ks

theorem Separated.stops (h : Separated false cs rest) : Stops isNumeric cs := by
  obtain ⟨ds, hd, -⟩ := h
  exact hd.stops (stops_cons rfl ds)

theorem Items.Written.stops {is : Items} (h : is.Written false cs rest) : Stops isNumeric cs := by
  cases is with
  | closed => exact Run.stops h (stops_cons rfl rest)
  | item =>
    obtain ⟨_, _, hs, -⟩ := h
    exact hs.stops
  | stuck => exact h.elim

theorem Members.Written.stops {ms : Members} (h : ms.Written false cs rest) :
    Stops isNumeric cs := by
  cases ms with
  | closed => exact Run.stops h (stops_cons rfl rest)
  | member =>
    obtain ⟨_, _, _, _, _, hs, -⟩ := h
    exact hs.stops
  | stuck => exact h.elim

-- By the trees: the first character tells the kind, and what comes after an item or a member tells
-- where it ends. Only a numeral could go on, so its text must not be followed by more of one.
mutual

private theorem Node.Written.unique {n m : Node} {cs rest left : List Char} (h : n.Written cs rest)
    (k : m.Written cs left) (hs : Stops isNumeric rest) (ks : Stops isNumeric left) :
    n.bare = m.bare ∧ rest = left := by
  have hk : n.kind = m.kind := h.kind_eq k
  cases n with
  | null =>
    cases m with
    | null => cases Eq.trans h.symm k; exact ⟨rfl, rfl⟩
    | _ => cases hk
  | boolean b =>
    cases m with
    | boolean b' =>
      cases hk
      cases b <;> cases Eq.trans h.symm k <;> exact ⟨rfl, rfl⟩
    | _ => cases hk
  | number =>
    cases m with
    | number => exact ⟨rfl, (Numeral.run h).unique (Numeral.run k) hs ks⟩
    | _ => cases hk
  | text s =>
    cases m with
    | text t =>
      obtain ⟨ds, rfl, hq⟩ := h
      obtain ⟨_, he, kq⟩ := k
      cases he
      obtain ⟨hst, hr⟩ := hq.unique kq
      exact ⟨by rw [Node.bare, Node.bare, String.toList_inj.mp hst], hr⟩
    | _ => cases hk
  | list p is =>
    cases m with
    | list q js =>
      obtain ⟨ds, rfl, hi⟩ := h
      obtain ⟨_, he, ki⟩ := k
      cases he
      obtain ⟨hij, hr⟩ := Items.Written.unique hi ki
      exact ⟨by rw [Node.bare, Node.bare, hij], hr⟩
    | _ => cases hk
  | object p ms =>
    cases m with
    | object q ns =>
      obtain ⟨ds, rfl, hi⟩ := h
      obtain ⟨_, he, ki⟩ := k
      cases he
      obtain ⟨hij, hr⟩ := Members.Written.unique hi ki
      exact ⟨by rw [Node.bare, Node.bare, hij], hr⟩
    | _ => cases hk
  | broken => exact h.elim

private theorem Items.Written.unique {is js : Items} {first : Bool} {cs rest left : List Char}
    (h : is.Written first cs rest) (k : js.Written first cs left) :
    is.bare = js.bare ∧ rest = left := by
  cases is with
  | closed =>
    cases js with
    | closed =>
      cases Run.unique h k (stops_cons rfl rest) (stops_cons rfl left)
      exact ⟨rfl, rfl⟩
    | item p v more =>
      obtain ⟨ds, es, hsep, hv, -⟩ := k
      obtain ⟨c, ds, rfl, hc⟩ := hv.head
      refine absurd h (hsep.ne_closing hv.stops ?_ rfl (by decide))
      rintro ⟨⟩
      rw [v.opens_eq_false (by simp)] at hc
      cases hc
    | stuck => exact k.elim
  | item p v more =>
    obtain ⟨ds, es, hsep, hv, hm⟩ := h
    cases js with
    | closed =>
      obtain ⟨c, ds, rfl, hc⟩ := hv.head
      refine absurd k (hsep.ne_closing hv.stops ?_ rfl (by decide))
      rintro ⟨⟩
      rw [v.opens_eq_false (by simp)] at hc
      cases hc
    | item q w others =>
      obtain ⟨ds', es', ksep, kv, km⟩ := k
      cases hsep.unique ksep hv.stops kv.stops
      obtain ⟨hvw, rfl⟩ := Node.Written.unique hv kv hm.stops km.stops
      obtain ⟨hmo, hr⟩ := Items.Written.unique hm km
      exact ⟨by rw [Items.bare, Items.bare, hvw, hmo], hr⟩
    | stuck => exact k.elim
  | stuck => exact h.elim

private theorem Members.Written.unique {ms ns : Members} {first : Bool} {cs rest left : List Char}
    (h : ms.Written first cs rest) (k : ns.Written first cs left) :
    ms.bare = ns.bare ∧ rest = left := by
  cases ms with
  | closed =>
    cases ns with
    | closed =>
      cases Run.unique h k (stops_cons rfl rest) (stops_cons rfl left)
      exact ⟨rfl, rfl⟩
    | member =>
      obtain ⟨ds, _, _, _, _, hsep, -⟩ := k
      exact absurd h (hsep.ne_closing (stops_cons rfl ds) (by simp) rfl (by decide))
    | stuck => exact k.elim
  | member p key at_ v more =>
    obtain ⟨ds, es, fs, gs, hh, hsep, hq, hcolon, hb, hv, hm⟩ := h
    cases ns with
    | closed => exact absurd k (hsep.ne_closing (stops_cons rfl ds) (by simp) rfl (by decide))
    | member q key' at' w others =>
      obtain ⟨ds', es', fs', gs', hh', ksep, kq, kcolon, kb, kv, km⟩ := k
      cases hsep.unique ksep (stops_cons rfl ds) (stops_cons rfl ds')
      obtain ⟨hkey, rfl⟩ := hq.unique kq
      cases hcolon.unique kcolon (stops_cons rfl fs) (stops_cons rfl fs')
      cases hb.unique kb hv.stops kv.stops
      obtain ⟨hvw, rfl⟩ := Node.Written.unique hv kv hm.stops km.stops
      obtain ⟨hmo, hr⟩ := Members.Written.unique hm km
      exact ⟨by rw [Members.bare, Members.bare, String.toList_inj.mp hkey, hvw, hmo], hr⟩
    | stuck => exact k.elim
  | stuck => exact h.elim

end

end Unambiguous

/-- A text is a document of one value at most, apart from what is no matter of the grammar. -/
theorem Node.IsDocument.bare_eq {n m : Node} {text : String} (h : n.IsDocument text)
    (k : m.IsDocument text) : n.bare = m.bare := by
  obtain ⟨cs, rest, hb, hw, hr⟩ := h
  obtain ⟨ds, left, kb, kw, kr⟩ := k
  cases hb.unique kb hw.stops kw.stops
  exact (Node.Written.unique hw kw (hr.stops nofun) (kr.stops nofun)).1

end Lindenmayer.Json
