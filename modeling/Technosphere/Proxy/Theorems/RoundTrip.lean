import Technosphere.Proxy.Theorems.Config

namespace Proxy

open TextStream

structure Entry where
  spaces : List Char
  addr   : ServerAddress
  comma  : Bool
  isSpace_spaces : ∀ c ∈ spaces, isSpace c = true
  spaces_ne      : spaces ≠ []
  ip_ne_space    : ∀ c ∈ addr.ip.toList, isSpace c = false
  comma_ip       : ',' ∉ addr.ip.toList
  colon_ip       : ':' ∉ addr.ip.toList
  port_lower     : -2 ^ 31 ≤ addr.port
  port_upper     : addr.port < 2 ^ 31

namespace Entry

variable (e : Entry) {c : Char}

def addrText : List Char :=
  e.addr.ip.toList ++ ':' :: (toString e.addr.port).toList

def word : List Char :=
  e.addrText ++ if e.comma then [','] else []

theorem mem_port (h : c ∈ (toString e.addr.port).toList) :
    isSpace c = false ∧ c ≠ ',' ∧ c ≠ ':' := by
  rcases mem_toString h with rfl | h
  · decide
  · refine ⟨(isSpace_of_isDigit h).1, ?_, ?_⟩ <;> rintro rfl <;> simp at h

theorem word_ne : e.word ≠ [] := by
  simp [word, addrText]

theorem isSpace_word : ∀ c ∈ e.word, isSpace c = false := by
  intro c hc
  rcases List.mem_append.mp hc with hc | hc
  · rcases List.mem_append.mp hc with hc | hc
    · exact e.ip_ne_space c hc
    · rcases List.mem_cons.mp hc with rfl | hc
      · decide
      · exact (e.mem_port hc).1
  · split_ifs at hc
    · obtain rfl := List.mem_singleton.mp hc
      decide
    · exact absurd hc List.not_mem_nil

theorem comma_addrText : ',' ∉ e.addrText := by
  intro hc
  rcases List.mem_append.mp hc with hc | hc
  · exact e.comma_ip hc
  · rcases List.mem_cons.mp hc with hc | hc
    · exact absurd hc (by decide)
    · exact (e.mem_port hc).2.1 rfl

theorem stripComma_word : ServerAddress.stripComma (.ofList e.word) = .ofList e.addrText := by
  rw [ServerAddress.stripComma, String.toList_ofList, word]
  cases e.comma with
  | true  => simp
  | false =>
    have hl : e.addrText.getLast? ≠ some ',' := fun h =>
      e.comma_addrText (List.mem_of_getLast? h)
    simp [hl]

theorem splitOn_addrText :
    e.addrText.splitOn ':' = [e.addr.ip.toList, (toString e.addr.port).toList] := by
  rw [addrText, List.splitOn_append_cons_self_of_not_mem e.colon_ip,
    List.splitOn_eq_singleton fun h => (e.mem_port h).2.2 rfl]

end Entry

-- A configuration file. The comma behind the port can only be missing when there are no addresses.
structure ConfigText where
  port    : ℤ
  comma   : Bool
  entries : List Entry
  spaces  : List Char
  port_lower     : -2 ^ 31 ≤ port
  port_upper     : port < 2 ^ 31
  comma_entries  : entries ≠ [] → comma = true
  isSpace_spaces : ∀ c ∈ spaces, isSpace c = true

namespace ConfigText

variable (t : ConfigText)

def addrsText (entries : List Entry) (spaces : List Char) : List Char :=
  (entries.map fun e => e.spaces ++ e.word).flatten ++ spaces

def commaText : List Char :=
  if t.comma then [','] else []

def text : String :=
  .ofList ((toString t.port).toList ++ (t.commaText ++ addrsText t.entries t.spaces))

theorem isSpace_head?_addrsText {entries : List Entry} {spaces : List Char}
    (h : ∀ c ∈ spaces, isSpace c = true) :
    ∀ c ∈ (addrsText entries spaces).head?, isSpace c = true := by
  intro c hc
  cases entries with
  | nil            => exact h c (List.mem_of_head? hc)
  | cons e entries =>
    obtain ⟨d, ds, hd⟩ := List.exists_cons_of_ne_nil e.spaces_ne
    have hs : d = c := by simpa [addrsText, hd] using hc
    exact e.isSpace_spaces c (by simp [hd, hs])

theorem words_addrsText {entries : List Entry} {spaces : List Char}
    (h : ∀ c ∈ spaces, isSpace c = true) :
    Words.words isSpace (addrsText entries spaces) = entries.map Entry.word := by
  induction entries with
  | nil               =>
    rw [Words.words_of_nil]
    · rfl
    · simpa [addrsText] using h
  | cons e entries hi =>
    have ha : addrsText (e :: entries) spaces =
        e.spaces ++ (e.word ++ addrsText entries spaces) := by
      simp [addrsText]
    rw [ha, Words.words_append_of_sep e.isSpace_spaces,
      Words.words_append e.word_ne e.isSpace_word (isSpace_head?_addrsText h), hi]
    rfl

theorem extractInt_text (port : ℤ) : (TextStream.opened t.text).extractInt port =
    (t.port, ⟨t.commaText ++ addrsText t.entries t.spaces,
      (t.commaText ++ addrsText t.entries t.spaces).isEmpty, false⟩) := by
  refine (ready_opened t.text).extractInt_text (String.toList_ofList ..) ?_ t.port_lower
    t.port_upper port
  intro c hc
  rw [commaText] at hc
  split_ifs at hc
  · obtain rfl : ',' = c := by simpa using hc
    decide
  · have hs := isSpace_head?_addrsText t.isSpace_spaces c hc
    by_contra hd
    simp [(isSpace_of_isDigit (Bool.not_eq_false _ ▸ hd)).1] at hs

theorem addressWords_text : ConfigProxy.addressWords t.text =
    t.entries.map fun e => .ofList e.word := by
  have hr : ((opened t.text).extractInt 0).2.Ready :=
    ready_extractInt (by rw [t.extractInt_text])
  rw [ConfigProxy.addressWords]
  rw [t.extractInt_text] at hr ⊢
  cases hc : t.comma with
  | true  =>
    rw [hr.extractChar_eq (c := ',') (by simp [commaText, hc]; rfl) (by decide)]
    rw [if_neg Bool.false_ne_true, words_addrsText t.isSpace_spaces, List.map_map]
    rfl
  | false =>
    have hn : t.entries = [] := by
      by_contra hn
      simp [t.comma_entries hn] at hc
    have hsp : (t.commaText ++ addrsText t.entries t.spaces).dropWhile isSpace = [] := by
      simpa [commaText, hc, hn, addrsText] using t.isSpace_spaces
    have hf := hr.extractChar_nil hsp ' '
    rw [if_pos hf, hn]
    rfl

end ConfigText

theorem Boost.lexicalCast_std (n : ℤ) (hl : -2 ^ 31 ≤ n) (hu : n < 2 ^ 31) :
    Boost.std.lexicalCast (toString n) = some n := by
  have he : (opened (toString n)).extractInt 0 = (n, ⟨[], true, false⟩) :=
    (ready_opened (toString n)).extractInt_text (by simp [opened]) (by simp) hl hu 0
  have hn : (toString n).toList.head?.any isSpace = false := by
    cases hc : (toString n).toList.head? with
    | none   => rfl
    | some c =>
      rcases mem_toString (List.mem_of_head? hc) with rfl | hd
      · rfl
      · exact (isSpace_of_isDigit hd).1
  simp only [std, he, hn]
  rfl

section RoundTrip

variable {boost : Boost} (hs : ∀ s, boost.split s = (s.toList.splitOn ':').map .ofList)
  (hc : ∀ n : ℤ, -2 ^ 31 ≤ n → n < 2 ^ 31 → boost.lexicalCast (toString n) = some n)
include hs hc

theorem Entry.ofWord_word (e : Entry) :
    ServerAddress.ofWord boost (.ofList e.word) = .ok e.addr := by
  have hp := hc e.addr.port e.port_lower e.port_upper
  have hv : boost.split (ServerAddress.stripComma (.ofList e.word)) =
      [e.addr.ip, toString e.addr.port] := by
    rw [hs, e.stripComma_word, String.toList_ofList, e.splitOn_addrText]
    simp
  simp only [ServerAddress.ofWord, hv, element, List.getElem?_cons_zero, List.getElem?_cons_succ,
    bind, Except.bind, hp]
  rfl

theorem ConfigText.new_text (t : ConfigText) (port : ℤ) : ConfigProxy.new boost port t.text =
    some (.ok (t.port, ⟨t.entries.map Entry.addr⟩)) := by
  have hm : (t.entries.map fun e => String.ofList e.word).mapM (ServerAddress.ofWord boost) =
      .ok (t.entries.map Entry.addr) := by
    rw [List.mapM_eq_ok, List.forall₂_map_left_iff, List.forall₂_map_right_iff]
    exact List.forall₂_same.mpr fun e _ => e.ofWord_word hs hc
  rw [ConfigProxy.new_eq, t.addressWords_text, hm, t.extractInt_text]
  rfl

end RoundTrip

theorem ConfigText.new_text_of_two :
    ConfigProxy.new .std 0 "3100, 127.0.0.1:3000,\n\tlocalhost:-1,\n" =
      some (.ok (3100, ⟨[⟨"127.0.0.1", 3000⟩, ⟨"localhost", -1⟩]⟩)) := by
  let e₁ : Entry := {
    spaces         := [' ']
    addr           := ⟨"127.0.0.1", 3000⟩
    comma          := true
    isSpace_spaces := by simp [isSpace]
    spaces_ne      := by simp
    ip_ne_space    := by simp [isSpace]
    comma_ip       := by simp
    colon_ip       := by simp
    port_lower     := by simp
    port_upper     := by simp }
  let e₂ : Entry := {
    spaces         := ['\n', '\t']
    addr           := ⟨"localhost", -1⟩
    comma          := true
    isSpace_spaces := by simp [isSpace]
    spaces_ne      := by simp
    ip_ne_space    := by simp [isSpace]
    comma_ip       := by simp
    colon_ip       := by simp
    port_lower     := by simp
    port_upper     := by simp }
  let t : ConfigText := {
    port           := 3100
    comma          := true
    entries        := [e₁, e₂]
    spaces         := ['\n']
    port_lower     := by simp
    port_upper     := by simp
    comma_entries  := fun _ => rfl
    isSpace_spaces := by simp [isSpace] }
  have ht : t.text = "3100, 127.0.0.1:3000,\n\tlocalhost:-1,\n" := by decide +kernel
  rw [← ht]
  exact t.new_text (fun _ => rfl) Boost.lexicalCast_std 0

end Proxy
