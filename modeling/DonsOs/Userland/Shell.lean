import DonsOs.Lib.Log
import DonsOs.Lib.Words
import Mathlib.Data.List.TakeWhile
import Mathlib.Tactic

/-! The user shell: `readline` and `tokenize` of `user_shell.c`.
A buffer is its bytes together with the indices that were written.  A loop that looks for the
end of a string takes fuel and answers `none` when that runs out, so that a string which does
not end is never mistaken for one that does. -/
namespace DonsOs
namespace Userland

open Log Words

abbrev Byte := BitVec 8

structure Buffer where
  mem : ℕ → Byte
  writes : List ℕ

def Buffer.store (b : Buffer) (i : ℕ) (c : Byte) : Buffer := ⟨Function.update b.mem i c,i::b.writes⟩

/-! Reading a line. -/

/-- `'\r'` or `'\n'`. -/
def lineEnd (c : Byte) : Bool := c = 0x0D || c = 0x0A

/-- `'\b'` or DEL. -/
def deletes (c : Byte) : Bool := c = 0x08 || c = 0x7F

/-- What `readline` leaves: its return value (`none` is -1), the buffer, what it has written to the
console, and the input that it has not read. -/
structure Line where
  result : Option ℕ
  buf : Buffer
  echo : List Byte
  rest : List Byte

/-- `readline(buf, cap)` with `len` characters in the buffer; `read` fails when the input is used
up.  `char` is signed, so bytes from 0x80 on are below 0x20. -/
def readlineFrom (cap : ℕ) : List Byte → ℕ → Buffer → List Byte → Line
  | [], _, buf, echo => ⟨none,buf,echo,[]⟩
  | c::input, len, buf, echo =>
    if lineEnd c then ⟨some len,buf.store len 0,echo++[0x0D,0x0A],input⟩
    else if deletes c then
      if 0 < len then readlineFrom cap input (len-1) buf (echo++[0x08,0x20,0x08])
      else readlineFrom cap input len buf echo
    else if c.toInt < 0x20 ∨ 0x7E < c.toInt then readlineFrom cap input len buf echo
    else if cap ≤ len+1 then readlineFrom cap input len buf echo
    else readlineFrom cap input (len+1) (buf.store len c) (echo++[c])

def readline (cap : ℕ) (buf : Buffer) (input : List Byte) : Line := readlineFrom cap input 0 buf []

/-- What a byte makes of the line: a printable one is added while there is room. -/
def edit (cap : ℕ) (text : List Byte) (c : Byte) : List Byte :=
  if deletes c then text.dropLast
  else if (0x20 ≤ c.toNat ∧ c.toNat ≤ 0x7E) ∧ text.length < cap-1 then text++[c]
  else text

/-- The bytes before the end of the line, replayed. -/
def edited (cap : ℕ) (input : List Byte) : List Byte :=
  (input.takeWhile fun c => !lineEnd c).foldl (edit cap) []

/-- The string at `p`: its characters, none of them NUL, and the NUL after them. -/
structure StringAt (mem : ℕ → Byte) (p : ℕ) (cs : List Byte) : Prop where
  chars : ∀ i c, cs[i]? = some c → mem (p+i) = c
  ends : mem (p+cs.length) = 0
  nonzero : ∀ c ∈ cs, c ≠ 0

/-- The first characters of the buffer are the line so far. -/
structure Typed (cap : ℕ) (buf₀ : Buffer) (text : List Byte) (buf : Buffer) : Prop where
  chars : ∀ i c, text[i]? = some c → buf.mem i = c
  nonzero : ∀ c ∈ text, c ≠ 0
  room : text.length < cap
  inside : Adds (· < cap) buf₀.writes buf.writes

variable {cap : ℕ} {buf₀ buf : Buffer} {text : List Byte} {c : Byte}

theorem printable_bytes (c : Byte) :
    ¬(c.toInt < 0x20 ∨ 0x7E < c.toInt) ↔ 0x20 ≤ c.toNat ∧ c.toNat ≤ 0x7E := by
  have hlt := c.isLt
  rw [BitVec.toInt_eq_toNat_cond]
  split_ifs <;> omega

theorem Typed.dropLast (h : Typed cap buf₀ text buf) : Typed cap buf₀ text.dropLast buf := by
  have hroom := h.room
  refine ⟨fun i c hc => ?_,fun c hc => h.nonzero c (List.mem_of_mem_dropLast hc),?_,h.inside⟩
  · rw [List.getElem?_dropLast] at hc
    split at hc
    · exact h.chars i c hc
    · exact absurd hc (by simp)
  · rw [List.length_dropLast]
    omega

theorem Typed.append (h : Typed cap buf₀ text buf) (hc : c ≠ 0) (hroom : text.length+1 < cap) :
    Typed cap buf₀ (text++[c]) (buf.store text.length c) := by
  refine ⟨fun i d hd => ?_,fun d hd => ?_,by simpa using hroom,h.inside.cons h.room⟩
  · simp only [Buffer.store]
    rcases Nat.lt_or_ge i text.length with hlt | hge
    · rw [List.getElem?_append_left hlt] at hd
      rw [Function.update_of_ne (by omega)]
      exact h.chars i d hd
    · rw [List.getElem?_append_right hge,List.getElem?_singleton] at hd
      split at hd
      · obtain rfl : i = text.length := by omega
        rw [Function.update_self]
        exact Option.some.inj hd
      · exact absurd hd (by simp)
  · rcases List.mem_append.mp hd with hd | hd
    · exact h.nonzero d hd
    · rwa [List.mem_singleton.mp hd]

theorem Typed.stringAt (h : Typed cap buf₀ text buf) :
    StringAt (buf.store text.length 0).mem 0 text := by
  refine ⟨fun i c hc => ?_,by simp [Buffer.store],h.nonzero⟩
  have hi : i < text.length := (List.getElem?_eq_some_iff.mp hc).1
  simp only [Buffer.store,Nat.zero_add]
  rw [Function.update_of_ne (by omega)]
  exact h.chars i c hc

/-- What `readline` leaves of a line. -/
structure Entered (cap : ℕ) (buf₀ : Buffer) (text : List Byte) (r : Line) : Prop where
  result : r.result = some text.length
  string : StringAt r.buf.mem 0 text
  room : text.length < cap
  inside : Adds (· < cap) buf₀.writes r.buf.writes

theorem readlineFrom_entered {input : List Byte} (hend : ∃ c ∈ input, lineEnd c = true)
    (h : Typed cap buf₀ text buf) (echo : List Byte) :
    Entered cap buf₀ ((input.takeWhile fun c => !lineEnd c).foldl (edit cap) text)
      (readlineFrom cap input text.length buf echo) := by
  induction input generalizing text buf echo with
  | nil => exact absurd hend (by simp)
  | cons c input ih =>
    rw [readlineFrom]
    cases hc : lineEnd c with
    | true =>
      rw [List.takeWhile_cons_of_neg (by simp [hc]),if_pos rfl]
      exact ⟨rfl,h.stringAt,h.room,h.inside.cons h.room⟩
    | false =>
      have hrest : ∃ d ∈ input, lineEnd d = true := by
        obtain ⟨d,hd,hde⟩ := hend
        rcases List.mem_cons.mp hd with rfl | hd
        · rw [hc] at hde
          exact absurd hde (by decide)
        · exact ⟨d,hd,hde⟩
      rw [List.takeWhile_cons_of_pos (by simp [hc]),List.foldl_cons,if_neg (by decide),edit]
      by_cases hdel : deletes c = true
      · rw [if_pos hdel,if_pos hdel]
        by_cases hlen : 0 < text.length
        · rw [if_pos hlen,← List.length_dropLast]
          exact ih hrest h.dropLast _
        · have hsame : text.dropLast = text := by
            rw [List.length_eq_zero_iff.mp (show text.length = 0 by omega)]
            rfl
          rw [if_neg hlen,hsame]
          exact ih hrest h _
      · rw [if_neg hdel,if_neg hdel]
        have hprint := printable_bytes c
        by_cases hp : 0x20 ≤ c.toNat ∧ c.toNat ≤ 0x7E
        · rw [if_neg (hprint.mpr hp)]
          by_cases hfull : cap ≤ text.length+1
          · rw [if_pos hfull,if_neg (by omega)]
            exact ih hrest h _
          · rw [if_neg hfull,if_pos ⟨hp,by omega⟩]
            have hne : c ≠ 0 := by
              rintro rfl
              exact absurd hp.1 (by decide)
            have happ := h.append hne (by omega)
            have hlen : text.length+1 = (text++[c]).length := by simp
            rw [hlen]
            exact ih hrest happ _
        · rw [if_pos (not_not.mp fun hn => hp (hprint.mp hn)),if_neg fun hh => hp hh.1]
          exact ih hrest h _

theorem readline_entered {input : List Byte} (hcap : 0 < cap) (hend : ∃ c ∈ input, lineEnd c = true)
    (buf : Buffer) : Entered cap buf (edited cap input) (readline cap buf input) :=
  readlineFrom_entered hend ⟨by simp,by simp,hcap,Adds.refl _ _⟩ []

/-! Splitting it. -/

/-- `' '` or `'\t'`. -/
def blank (c : Byte) : Bool := c = 0x20 || c = 0x09

/-- The buffer, and `argv` with the indices that were written to; a pointer is an index into the
buffer and `none` is `NULL`. -/
structure Args where
  buf : Buffer
  argv : ℕ → Option ℕ
  slots : List ℕ

def Args.setArg (s : Args) (i : ℕ) (p : Option ℕ) : Args :=
  { s with argv := Function.update s.argv i p, slots := i::s.slots }

/-- `while (...) p++`, where the condition is about `*p`. -/
def scanWhile (ok : Byte → Bool) (mem : ℕ → Byte) : ℕ → ℕ → Option ℕ
  | 0, _ => none
  | fuel+1, p => if ok (mem p) then scanWhile ok mem fuel (p+1) else some p

/-- `*p != '\0' && *p != ' ' && *p != '\t'`. -/
def inWord (c : Byte) : Bool := c ≠ 0 && !blank c

/-- `tokenize(buf, argv, max)` from `p` on, with `argc` words found. -/
def tokenizeFrom (max : ℕ) : ℕ → ℕ → ℕ → Args → Option (ℕ × Args)
  | 0, _, _, _ => none
  | fuel+1, p, argc, s =>
    if s.buf.mem p ≠ 0 ∧ argc+1 < max then
      (scanWhile blank s.buf.mem (fuel+1) p).bind fun p =>
      if s.buf.mem p = 0 then some (argc,s.setArg argc none) else
      let s := s.setArg argc (some p)
      (scanWhile inWord s.buf.mem (fuel+1) p).bind fun p =>
      if s.buf.mem p ≠ 0 then tokenizeFrom max fuel (p+1) (argc+1) { s with buf := s.buf.store p 0 }
      else tokenizeFrom max fuel p (argc+1) s
    else some (argc,s.setArg argc none)

/-- `fuel` bounds the length of the string, with its NUL. -/
def tokenize (fuel : ℕ) (buf : Buffer) (argv : ℕ → Option ℕ) (max : ℕ) : Option (ℕ × Args) :=
  tokenizeFrom max fuel 0 0 ⟨buf,argv,[]⟩

variable {mem : ℕ → Byte} {p fuel : ℕ} {cs w : List Byte}

theorem StringAt.head (h : StringAt mem p (c::cs)) : mem p = c := by
  simpa using h.chars 0 c rfl

theorem StringAt.tail (h : StringAt mem p (c::cs)) : StringAt mem (p+1) cs := by
  refine ⟨fun i d hd => ?_,?_,fun d hd => h.nonzero d (List.mem_cons_of_mem c hd)⟩
  · have hchar := h.chars (i+1) d (by simpa using hd)
    rwa [show p+(i+1) = p+1+i by omega] at hchar
  · have hends := h.ends
    rwa [List.length_cons,show p+(cs.length+1) = p+1+cs.length by omega] at hends

theorem StringAt.append {ds : List Byte} (h : StringAt mem p (cs++ds)) : StringAt mem (p+cs.length) ds := by
  induction cs generalizing p with
  | nil => exact h
  | cons c cs ih =>
    have htail := ih h.tail
    rwa [show p+1+cs.length = p+(c::cs).length by simp; omega] at htail

theorem scanWhile_string {ok : Byte → Bool} (hok : ok 0 = false) (h : StringAt mem p cs)
    (hfuel : cs.length < fuel) : scanWhile ok mem fuel p = some (p+(cs.takeWhile ok).length) := by
  induction cs generalizing p fuel with
  | nil =>
    obtain ⟨fuel,rfl⟩ : ∃ n, fuel = n+1 := ⟨fuel-1,by simp at hfuel; omega⟩
    rw [scanWhile,show mem p = 0 from h.ends,hok]
    rfl
  | cons c cs ih =>
    obtain ⟨fuel,rfl⟩ : ∃ n, fuel = n+1 := ⟨fuel-1,by simp at hfuel; omega⟩
    rw [scanWhile,h.head]
    cases hc : ok c with
    | true =>
      rw [if_pos rfl,ih h.tail (by simpa using hfuel),List.takeWhile_cons_of_pos hc,List.length_cons]
      congr 1
      omega
    | false =>
      rw [if_neg (by decide),List.takeWhile_cons_of_neg (by simp [hc])]
      rfl

theorem StringAt.dropWhile (h : StringAt mem p cs) (ok : Byte → Bool) :
    StringAt mem (p+(cs.takeWhile ok).length) (cs.dropWhile ok) :=
  StringAt.append (by rwa [List.takeWhile_append_dropWhile])

/-- The words `found` lie before `limit`, each closed by a NUL and pointed to by its place in
`argv`.  All stores went to the first `size` bytes of the buffer and the first `max` places. -/
structure Split (buf₀ : Buffer) (size max : ℕ) (found : List (List Byte)) (limit : ℕ) (s : Args) : Prop
    where
  args : ∀ i w, found[i]? = some w → ∃ a, s.argv i = some a ∧ StringAt s.buf.mem a w ∧ a+w.length < limit
  inside : Adds (· < size) buf₀.writes s.buf.writes
  slots : ∀ i ∈ s.slots, i < max

variable {size max limit : ℕ} {found : List (List Byte)} {s : Args}

theorem Split.point (h : Split buf₀ size max found limit s) (hmax : found.length < max) {a : ℕ}
    (hw : StringAt s.buf.mem a w) (hlimit : limit ≤ a) :
    Split buf₀ size max (found++[w]) (a+w.length+1) (s.setArg found.length (some a)) := by
  refine ⟨fun i v hv => ?_,h.inside,fun i hi => ?_⟩
  · simp only [Args.setArg]
    rcases Nat.lt_or_ge i found.length with hlt | hge
    · rw [List.getElem?_append_left hlt] at hv
      obtain ⟨b,hb,hstring,hbefore⟩ := h.args i v hv
      exact ⟨b,by rw [Function.update_of_ne (by omega),hb],hstring,by omega⟩
    · rw [List.getElem?_append_right hge,List.getElem?_singleton] at hv
      split at hv
      · obtain rfl : i = found.length := by omega
        obtain rfl : w = v := Option.some.inj hv
        exact ⟨a,by rw [Function.update_self],hw,by omega⟩
      · exact absurd hv (by simp)
  · rcases List.mem_cons.mp hi with rfl | hi
    · exact hmax
    · exact h.slots i hi

theorem StringAt.store {b : Buffer} {a q : ℕ} (h : StringAt b.mem a w) (hq : a+w.length < q) (c : Byte) :
    StringAt (b.store q c).mem a w := by
  refine ⟨fun i d hd => ?_,?_,h.nonzero⟩
  · have hi : i < w.length := (List.getElem?_eq_some_iff.mp hd).1
    simp only [Buffer.store]
    rw [Function.update_of_ne (by omega)]
    exact h.chars i d hd
  · simp only [Buffer.store]
    rw [Function.update_of_ne (by omega)]
    exact h.ends

theorem Split.store (h : Split buf₀ size max found limit s) {q : ℕ} (hq : limit ≤ q) (hsize : q < size)
    (c : Byte) : Split buf₀ size max found limit { s with buf := s.buf.store q c } := by
  refine ⟨fun i w hw => ?_,h.inside.cons hsize,h.slots⟩
  obtain ⟨a,ha,hstring,hbefore⟩ := h.args i w hw
  exact ⟨a,ha,hstring.store (by omega) c,hbefore⟩

theorem StringAt.cut {b : Buffer} {a : ℕ} {e : Byte} {es : List Byte} (h : StringAt b.mem a (w++e::es)) :
    StringAt (b.store (a+w.length) 0).mem a w := by
  refine ⟨fun i d hd => ?_,by simp [Buffer.store],fun d hd => h.nonzero d (by simp [hd])⟩
  have hi : i < w.length := (List.getElem?_eq_some_iff.mp hd).1
  simp only [Buffer.store]
  rw [Function.update_of_ne (by omega)]
  exact h.chars i d (by rw [List.getElem?_append_left hi,hd])

theorem StringAt.after {b : Buffer} {a q : ℕ} (h : StringAt b.mem a cs) (hq : q < a) (c : Byte) :
    StringAt (b.store q c).mem a cs := by
  refine ⟨fun i d hd => ?_,?_,h.nonzero⟩
  · simp only [Buffer.store]
    rw [Function.update_of_ne (by omega)]
    exact h.chars i d hd
  · simp only [Buffer.store]
    rw [Function.update_of_ne (by omega)]
    exact h.ends

/-- The places of `argv` up to the `NULL` behind the last word. -/
structure Tokenized (buf₀ : Buffer) (size max : ℕ) (found : List (List Byte)) (r : ℕ × Args) : Prop where
  argc : r.1 = found.length
  args : ∀ i w, found[i]? = some w → ∃ a, r.2.argv i = some a ∧ StringAt r.2.buf.mem a w
  null : r.2.argv r.1 = none
  inside : Adds (· < size) buf₀.writes r.2.buf.writes
  slots : ∀ i ∈ r.2.slots, i < max

theorem Split.finish (h : Split buf₀ size max found limit s) (hmax : found.length < max) :
    Tokenized buf₀ size max found (found.length,s.setArg found.length none) := by
  refine ⟨rfl,fun i w hw => ?_,by simp [Args.setArg],h.inside,fun i hi => ?_⟩
  · obtain ⟨a,ha,hstring,-⟩ := h.args i w hw
    have hi : i < found.length := (List.getElem?_eq_some_iff.mp hw).1
    refine ⟨a,?_,hstring⟩
    simp only [Args.setArg]
    rw [Function.update_of_ne (by omega),ha]
  · rcases List.mem_cons.mp hi with rfl | hi
    · exact hmax
    · exact h.slots i hi

theorem inWord_eq {c : Byte} (hc : c ≠ 0) : inWord c = !blank c := by
  rw [inWord,decide_eq_true hc,Bool.true_and]

/-- The word that a string not starting with a blank begins with, and what follows it. -/
theorem inWord_spec {d : Byte} {ds : List Byte} (hd : blank d = false) (hne : ∀ c ∈ d::ds, c ≠ 0) :
    (d::ds).takeWhile inWord ≠ [] ∧ (∀ c ∈ (d::ds).takeWhile inWord, blank c = false) ∧
      ∀ e es, (d::ds).dropWhile inWord = e::es → blank e = true := by
  refine ⟨?_,fun c hc => ?_,fun e es he => ?_⟩
  · rw [List.takeWhile_cons_of_pos (by rw [inWord_eq (hne d (by simp)),hd]; rfl)]
    exact List.cons_ne_nil _ _
  · have hin := List.mem_takeWhile_imp hc
    rw [inWord_eq (hne c (List.takeWhile_subset _ hc))] at hin
    simpa using hin
  · have hmem : e ∈ (d::ds).dropWhile inWord := by
      rw [he]
      simp
    have hhead := List.head?_dropWhile_not inWord (d::ds)
    rw [he] at hhead
    simp only [List.head?_cons] at hhead
    rw [inWord_eq (hne e ((List.dropWhile_sublist inWord).mem hmem))] at hhead
    simpa using hhead

theorem Split.stop (h : Split buf₀ size max found limit s) (hmax : found.length < max)
    (hw : words blank cs = [] ∨ max ≤ found.length+1) :
    Tokenized buf₀ size max ((found++words blank cs).take (max-1))
      (found.length,s.setArg found.length none) := by
  have htake : (found++words blank cs).take (max-1) = found := by
    rcases hw with hw | hw
    · rw [hw,List.append_nil,List.take_of_length_le (by omega)]
    · exact List.take_left' (by omega)
  rw [htake]
  exact h.finish hmax

theorem tokenizeFrom_tokenized (h : Split buf₀ size max found limit s) (hlimit : cs ≠ [] → limit ≤ p)
    (hs : StringAt s.buf.mem p cs) (hfuel : cs.length < fuel) (hsize : p+cs.length < size)
    (hmax : found.length < max) :
    ∃ r, tokenizeFrom max fuel p found.length s = some r ∧
      Tokenized buf₀ size max ((found++words blank cs).take (max-1)) r := by
  induction fuel generalizing p cs found limit s with
  | zero => omega
  | succ fuel ih =>
    rw [tokenizeFrom]
    split_ifs with hgo
    · have hcs : cs ≠ [] := by
        rintro rfl
        exact hgo.1 hs.ends
      have hle := hlimit hcs
      rw [scanWhile_string (by decide) hs hfuel,Option.bind_some]
      have hrest := hs.dropWhile blank
      have hlen : (cs.takeWhile blank).length+(cs.dropWhile blank).length = cs.length := by
        rw [← List.length_append,List.takeWhile_append_dropWhile]
      rw [← words_dropWhile]
      generalize hp₁ : p+(cs.takeWhile blank).length = p₁ at hrest
      cases hdrop : cs.dropWhile blank with
      | nil =>
        rw [hdrop] at hrest
        have hends : s.buf.mem p₁ = 0 := hrest.ends
        rw [if_pos hends]
        exact ⟨_,rfl,h.stop hmax (Or.inl words_nil)⟩
      | cons d ds =>
        rw [hdrop] at hrest hlen
        have hblank : blank d = false := by
          have hhead := List.head?_dropWhile_not blank cs
          rw [hdrop] at hhead
          simpa using hhead
        have hd : s.buf.mem p₁ ≠ 0 := by
          rw [hrest.head]
          exact hrest.nonzero d (by simp)
        obtain ⟨hne,hword,htail⟩ := inWord_spec hblank hrest.nonzero
        have happ := List.takeWhile_append_dropWhile (p:=inWord) (l:=d::ds)
        have hscan := scanWhile_string (show inWord 0 = false by decide) hrest
          (show (d::ds).length < fuel+1 by omega)
        have hafter := hrest.dropWhile inWord
        generalize (d::ds).takeWhile inWord = w at hne hword happ hscan hafter
        generalize (d::ds).dropWhile inWord = tail at htail happ hafter
        rw [← happ] at hrest hlen ⊢
        rw [List.length_append] at hlen
        have hwpos : 0 < w.length := List.length_pos_iff.mpr hne
        have hcount : found.length+1 = (found++[w]).length := by simp
        rw [if_neg hd]
        dsimp only
        rw [show (s.setArg found.length (some p₁)).buf = s.buf from rfl,hscan,Option.bind_some,hcount]
        cases tail with
        | nil =>
          -- the word ends with the line, which has its NUL already
          rw [List.append_nil] at hrest ⊢
          have hends : ¬s.buf.mem (p₁+w.length) ≠ 0 := not_not.mpr hafter.ends
          have hnext := ih (h.point hmax hrest (by omega)) (fun hnil => absurd rfl hnil) hafter
            (by simp only [List.length_nil] at hlen ⊢; omega) (by omega) (by simp; omega)
          rw [words_nil,List.append_nil] at hnext
          rw [if_neg hends,words_last hne hword]
          exact hnext
        | cons e es =>
          -- the blank after the word is overwritten
          have he : s.buf.mem (p₁+w.length) ≠ 0 := by
            rw [hafter.head]
            exact hafter.nonzero e (by simp)
          simp only [List.length_cons] at hlen
          have hsplit := (h.store (q:=p₁+w.length) (by omega) (by omega) 0).point hmax hrest.cut (by omega)
          have hnext := ih hsplit (fun _ => le_rfl) (hafter.tail.after (by omega) 0) (by omega) (by omega)
            (by simp; omega)
          rw [if_pos he,words_first hne hword (htail e es rfl),List.append_cons found w (words blank es)]
          exact hnext
    · have hw : words blank cs = [] ∨ max ≤ found.length+1 := by
        rcases not_and_or.mp hgo with hnul | hfull
        · cases cs with
          | nil => exact Or.inl words_nil
          | cons c cs => exact absurd (hs.head ▸ hs.nonzero c (by simp)) hnul
        · exact Or.inr (by omega)
      exact ⟨_,rfl,h.stop hmax hw⟩

theorem tokenize_tokenized {buf : Buffer} (hs : StringAt buf.mem 0 cs) (hfuel : cs.length < fuel)
    (hmax : 0 < max) (argv : ℕ → Option ℕ) :
    ∃ r, tokenize fuel buf argv max = some r ∧
      Tokenized buf (cs.length+1) max ((words blank cs).take (max-1)) r := by
  have hstart : Split buf (cs.length+1) max [] 0 ⟨buf,argv,[]⟩ :=
    ⟨by simp,Adds.refl _ _,by simp⟩
  exact tokenizeFrom_tokenized hstart (fun _ => le_rfl) hs hfuel (by omega) hmax

/-- What was typed, edited, is in the buffer, and its words are in `argv`.  No store leaves the
buffer or `argv`. -/
theorem shell_line {cap : ℕ} (hcap : 0 < cap) {input : List Byte} (hend : ∃ c ∈ input, lineEnd c = true)
    (buf : Buffer) :
    let r := readline cap buf input
    Entered cap buf (edited cap input) r ∧
      ∀ max, 0 < max → ∀ (argv : ℕ → Option ℕ) fuel, (edited cap input).length < fuel →
        ∃ t, tokenize fuel r.buf argv max = some t ∧
          t.1 = min (max-1) (words blank (edited cap input)).length ∧
          Tokenized r.buf cap max ((words blank (edited cap input)).take (max-1)) t := by
  intro r
  have h := readline_entered hcap hend buf
  refine ⟨h,fun max hmax argv fuel hfuel => ?_⟩
  obtain ⟨t,ht,htok⟩ := tokenize_tokenized h.string hfuel hmax argv
  have hroom := h.room
  refine ⟨t,ht,by rw [htok.argc,List.length_take],htok.argc,htok.args,htok.null,?_,htok.slots⟩
  exact htok.inside.mono fun i hi => by omega

/-- `cp  x`, a deletion, `y`, and a word for which `argv` has no place. -/
def typedKeys : List Byte := [0x63,0x70,0x20,0x20,0x78,0x7F,0x79,0x20,0x7A,0x0D]

theorem shell_line_cp :
    let r := readline 256 ⟨fun _ => 0,[]⟩ typedKeys
    Entered 256 ⟨fun _ => 0,[]⟩ [0x63,0x70,0x20,0x20,0x79,0x20,0x7A] r ∧
      ∃ t, tokenize 256 r.buf (fun _ => none) 3 = some t ∧
        Tokenized r.buf 256 3 [[0x63,0x70],[0x79]] t := by
  obtain ⟨hentered,htokens⟩ := shell_line (show 0 < 256 by decide)
    (show ∃ c ∈ typedKeys, lineEnd c = true from ⟨0x0D,by decide,by decide⟩) ⟨fun _ => 0,[]⟩
  have htext : edited 256 typedKeys = [0x63,0x70,0x20,0x20,0x79,0x20,0x7A] := by decide
  have hwords : (words blank [0x63,0x70,0x20,0x20,0x79,0x20,0x7A]).take 2 = [[0x63,0x70],[0x79]] := by
    decide
  obtain ⟨t,ht,-,htok⟩ := htokens 3 (by decide) (fun _ => none) 256 (by rw [htext]; decide)
  rw [htext] at hentered htok
  rw [hwords] at htok
  exact ⟨hentered,t,ht,htok⟩

end Userland
end DonsOs
