import Technosphere.Lib.MapM
import Technosphere.Proxy.Config

namespace Proxy

theorem Boost.length_split_std (s : String) :
    (Boost.std.split s).length = s.toList.count ':' + 1 := by
  rw [std, List.length_map]
  induction s.toList with
  | nil          => rfl
  | cons c cs hi =>
    rw [List.splitOn_cons_eq_if_modifyHead, List.count_cons]
    split_ifs with h <;> simp [hi]

variable {boost : Boost} {w file : String} {e : ConfigError} {addr cur : ServerAddress}
  {addrs : List ServerAddress} {fin : TextStream} {n : ℕ}

namespace ConfigProxy

theorem readServers_of_fail (h : fin.fail = true) :
    readServers boost (n + 1) fin cur addrs = some (.ok addrs) := by
  have hf : (fin.extractString cur.ip).2.fail = true := TextStream.extractString_of_fail h _
  simp [readServers, ServerAddress.extract, hf]

theorem readServers_eq (h : fin.Ready) (hn : fin.rest.length < n) :
    readServers boost n fin cur addrs =
      some ((((Words.words TextStream.isSpace fin.rest).map String.ofList).mapM
        (ServerAddress.ofWord boost)).map (addrs ++ ·)) := by
  induction n generalizing fin cur addrs with
  | zero      => exact absurd hn (Nat.not_lt_zero _)
  | succ n ih =>
    by_cases hw : fin.rest.dropWhile TextStream.isSpace = []
    case pos =>
      have hf := h.extractString_nil hw cur.ip
      simp [readServers, ServerAddress.extract, hf, Words.words_of_nil hw, pure, Except.pure,
        Except.map]
    case neg =>
      obtain ⟨fin', he, hr, hrest⟩ := h.extractString_eq hw cur.ip
      have hlt := Words.length_lt_of_ne_nil hw
      rw [Words.words_of_ne_nil hw, List.map_cons, readServers]
      simp only [ServerAddress.extract, he, hr.fail, Bool.false_eq_true, ↓reduceIte]
      rw [← hrest]
      generalize String.ofList _ = w
      cases ho : ServerAddress.ofWord boost w with
      | error e => simp [List.mapM_cons_error ho, Except.map]
      | ok addr =>
        simp only [Except.map, hr.fail, Bool.false_eq_true, ↓reduceIte]
        rw [ih hr (by rw [hrest]; omega), List.mapM_cons_ok ho]
        cases List.mapM (ServerAddress.ofWord boost) _ <;> simp [Except.map]

def addressWords (file : String) : List String :=
  let fin := ((TextStream.opened file).extractInt 0).2
  let fin := (fin.extractChar ' ').2
  if fin.fail then [] else (Words.words TextStream.isSpace fin.rest).map String.ofList

theorem new_eq (boost : Boost) (port : ℤ) (file : String) : new boost port file =
    some (((addressWords file).mapM (ServerAddress.ofWord boost)).map fun serverAddrs =>
      (((TextStream.opened file).extractInt port).1, ⟨serverAddrs⟩)) := by
  have hs := TextStream.extractInt_stream (s := .opened file) port 0
  have hl : (((TextStream.opened file).extractInt port).2.extractChar ' ').2.rest.length <
      file.length + 1 := by
    refine Nat.lt_succ_of_le (TextStream.length_extractChar _ |>.trans ?_)
    refine (TextStream.length_extractInt _).trans ?_
    exact String.length_toList.le
  simp only [new, addressWords, ← hs]
  cases hf : (((TextStream.opened file).extractInt port).2.extractChar ' ').2.fail with
  | true  => simp [readServers_of_fail hf, pure, Except.pure, Except.map]
  | false =>
    rw [readServers_eq (TextStream.ready_extractChar hf) hl]
    simp only [Bool.false_eq_true, ↓reduceIte, Option.map_some]
    cases List.mapM (ServerAddress.ofWord boost) _ <;> simp [Except.map]

end ConfigProxy

namespace ServerAddress

def HasPort (boost : Boost) (w : String) : Prop :=
  ∃ text port, (boost.split (stripComma w))[1]? = some text ∧ boost.lexicalCast text = some port

theorem count_stripComma (w : String) :
    (stripComma w).toList.count ':' = w.toList.count ':' := by
  rw [stripComma]
  split_ifs with h
  · rw [String.toList_ofList]
    conv_rhs => rw [← List.dropLast_append_getLast? _ h]
    simp
  · rfl

section Split

variable (hs : ∀ s, (boost.split s).length = s.toList.count ':' + 1)
include hs

theorem split_cases (w : String) : (∃ ip, boost.split (stripComma w) = [ip] ∧ ':' ∉ w.toList) ∨
    ∃ ip text texts, boost.split (stripComma w) = ip :: text :: texts ∧ ':' ∈ w.toList := by
  have hl := hs (stripComma w)
  rw [count_stripComma] at hl
  rcases hv : boost.split (stripComma w) with _ | ⟨ip, _ | ⟨text, texts⟩⟩
  · simp [hv] at hl
  · left
    refine ⟨ip, rfl, List.count_eq_zero.mp ?_⟩
    simpa [hv] using hl.symm
  · right
    refine ⟨ip, text, texts, rfl, List.count_pos_iff.mp ?_⟩
    simp only [hv, List.length_cons] at hl
    omega

theorem ofWord_eq_outOfRange : ofWord boost w = .error .outOfRange ↔ ':' ∉ w.toList := by
  rcases split_cases hs w with ⟨ip, hv, hc⟩ | ⟨ip, text, texts, hv, hc⟩
  · simp [ofWord, hv, element, hc, bind, Except.bind]
  · simp only [ofWord, hv, element, hc, bind, Except.bind, List.getElem?_cons_zero,
      List.getElem?_cons_succ, not_true_eq_false, iff_false]
    cases boost.lexicalCast text <;> simp [pure, Except.pure, throw, throwThe, MonadExceptOf.throw]

theorem ofWord_eq_ok : (∃ addr, ofWord boost w = .ok addr) ↔ HasPort boost w := by
  rcases split_cases hs w with ⟨ip, hv, hc⟩ | ⟨ip, text, texts, hv, hc⟩
  · simp [ofWord, HasPort, hv, element, bind, Except.bind]
  · simp only [ofWord, HasPort, hv, element, bind, Except.bind, List.getElem?_cons_zero,
      List.getElem?_cons_succ, Option.some.injEq, exists_and_left, exists_eq_left']
    cases boost.lexicalCast text <;> simp [pure, Except.pure, throw, throwThe, MonadExceptOf.throw]

end Split

end ServerAddress

structure Behaves (boost : Boost) (port : ℤ) (file : String) : Prop where
  returns : ∃ r, ConfigProxy.new boost port file = some r ∧ r ≠ .error .outOfRange
  chooses : ∀ config, ConfigProxy.new boost port file = some (.ok config) →
    ∀ (p : ProxyServer) (rand : ℕ), p.config = config.2 →
      ∃ srvAddr ∈ config.2.serverAddrs, p.chooseServer rand = some srvAddr

-- The addresses have a colon, up to the first one whose port is not a number, and when there is
-- none their number is not zero as an `int`.
structure Usable (boost : Boost) (file : String) : Prop where
  colon : ∀ ws w ws', ConfigProxy.addressWords file = ws ++ w :: ws' →
    (∀ w' ∈ ws, ServerAddress.HasPort boost w') → ':' ∈ w.toList
  count : (∀ w ∈ ConfigProxy.addressWords file, ServerAddress.HasPort boost w) →
    ¬2 ^ 32 ∣ (ConfigProxy.addressWords file).length

-- A size that is kept in a number of `m` values is not larger than before, and is zero if `m`
-- divides it.
theorem bmod_size (l : ℕ) {m : ℕ} (hm : 0 < m) :
    ((l : ℤ).bmod m = 0 ↔ m ∣ l) ∧ ((l : ℤ).bmod m).natAbs ≤ l := by
  have hlt := Nat.mod_lt l hm
  have hle := Nat.mod_le l m
  rw [Nat.dvd_iff_mod_eq_zero, Int.bmod_def, ← Int.natCast_mod]
  generalize l % m = r at hlt hle ⊢
  split_ifs <;> omega

theorem ProxyServer.chooseServer_iff {p : ProxyServer} :
    (∀ rand, ∃ srvAddr ∈ p.config.serverAddrs, p.chooseServer rand = some srvAddr) ↔
      ¬2 ^ 32 ∣ p.config.serverAddrs.length := by
  obtain ⟨hz, hle⟩ := bmod_size p.config.serverAddrs.length (Nat.two_pow_pos 32)
  rw [← BitVec.toInt_ofNat] at hz hle
  simp only [chooseServer]
  rw [← hz]
  generalize (BitVec.ofNat 32 p.config.serverAddrs.length).toInt = cntSrv at hle ⊢
  constructor
  · rintro h rfl
    simpa using h 0
  · intro hc rand
    have hi : ((rand : ℤ).tmod cntSrv).toNat < p.config.serverAddrs.length := by
      have h := Int.emod_lt rand hc
      rw [Int.tmod_eq_emod_of_nonneg (Int.natCast_nonneg rand)]
      omega
    exact ⟨_, List.getElem_mem hi, by simp [hc, hi]⟩

namespace ConfigProxy

section New

variable (port : ℤ) (hs : ∀ s, (boost.split s).length = s.toList.count ':' + 1)
include hs

theorem mapM_ok {ws : List String} :
    (∃ addrs, ws.mapM (ServerAddress.ofWord boost) = .ok addrs) ↔
      ∀ w ∈ ws, ServerAddress.HasPort boost w := by
  rw [List.exists_mapM_eq_ok]
  exact forall₂_congr fun w _ => ServerAddress.ofWord_eq_ok hs

-- Up to the first word whose port is not a number, some word has no colon.
theorem new_outOfRange_iff : new boost port file = some (.error .outOfRange) ↔
    ∃ ws w ws', addressWords file = ws ++ w :: ws' ∧
      (∀ w' ∈ ws, ServerAddress.HasPort boost w') ∧ ':' ∉ w.toList := by
  have hm : new boost port file = some (.error .outOfRange) ↔
      (addressWords file).mapM (ServerAddress.ofWord boost) = .error .outOfRange := by
    rw [new_eq]
    cases (addressWords file).mapM (ServerAddress.ofWord boost) <;> simp [Except.map]
  simp only [hm, List.mapM_eq_error, ServerAddress.ofWord_eq_ok hs,
    ServerAddress.ofWord_eq_outOfRange hs]

theorem exists_new_ok (h : ∀ w ∈ addressWords file, ServerAddress.HasPort boost w) :
    ∃ config, new boost port file = some (.ok config) := by
  obtain ⟨addrs, ha⟩ := (mapM_ok hs).mpr h
  rw [new_eq, ha]
  exact ⟨_, rfl⟩

theorem of_new_ok {config : ℤ × ConfigProxy} (h : new boost port file = some (.ok config)) :
    (∀ w ∈ addressWords file, ServerAddress.HasPort boost w) ∧
      config.2.serverAddrs.length = (addressWords file).length := by
  rw [new_eq] at h
  cases hr : (addressWords file).mapM (ServerAddress.ofWord boost) with
  | error e  => simp [hr, Except.map] at h
  | ok addrs =>
    rw [hr] at h
    obtain rfl := Except.ok.inj (Option.some.inj h)
    exact ⟨(mapM_ok hs).mp ⟨addrs, hr⟩, (List.mapM_eq_ok.mp hr).length_eq.symm⟩

end New

end ConfigProxy

theorem behaves_iff (port : ℤ) (hs : ∀ s, (boost.split s).length = s.toList.count ':' + 1) :
    Behaves boost port file ↔ Usable boost file := by
  constructor
  · intro h
    constructor
    case colon =>
      intro ws w ws' hw hok
      by_contra hc
      obtain ⟨r, hr, hne⟩ := h.returns
      have hn := (ConfigProxy.new_outOfRange_iff port hs).mpr ⟨ws, w, ws', hw, hok, hc⟩
      exact hne (Option.some.inj (hr.symm.trans hn))
    case count =>
      intro hok hd
      obtain ⟨config, hn⟩ := ConfigProxy.exists_new_ok port hs hok
      have hl := (ConfigProxy.of_new_ok port hs hn).2
      have hc := ProxyServer.chooseServer_iff (p := .init config.2) |>.mp fun rand =>
        h.chooses config hn (.init config.2) rand rfl
      exact hc (hl.symm ▸ hd)
  · intro h
    constructor
    case returns =>
      refine ⟨_, ConfigProxy.new_eq boost port file, fun he => ?_⟩
      have hn := ConfigProxy.new_eq boost port file
      rw [he] at hn
      obtain ⟨ws, w, ws', hw, hok, hc⟩ := (ConfigProxy.new_outOfRange_iff port hs).mp hn
      exact hc (h.colon ws w ws' hw hok)
    case chooses =>
      intro config hn p rand hp
      obtain ⟨hok, hl⟩ := ConfigProxy.of_new_ok port hs hn
      rw [← hp] at hl ⊢
      exact ProxyServer.chooseServer_iff.mpr (hl ▸ h.count hok) rand

theorem behaves_iff_of_two : Behaves .std 0 "3100, 127.0.0.1:3000, 127.0.0.1:2900\n" := by
  refine (behaves_iff 0 Boost.length_split_std).mpr ?_
  have hw : ConfigProxy.addressWords "3100, 127.0.0.1:3000, 127.0.0.1:2900\n" =
      ["127.0.0.1:3000,", "127.0.0.1:2900"] := rfl
  constructor
  case colon =>
    intro ws w ws' he _
    have hm : w ∈ ["127.0.0.1:3000,", "127.0.0.1:2900"] := by
      rw [← hw, he]
      exact List.mem_append_right _ List.mem_cons_self
    rcases List.mem_pair.mp hm with rfl | rfl <;> decide
  case count => simp [hw]

-- The first file has an address without a port, and the second one has no addresses.
theorem not_behaves : (∀ s, (Boost.std.split s).length = s.toList.count ':' + 1) ∧
    ¬Behaves .std 0 "3100, localhost\n" ∧ ¬Behaves .std 0 "3100,\n" := by
  refine ⟨Boost.length_split_std, fun h => ?_, fun h => ?_⟩
  · obtain ⟨r, hr, hne⟩ := h.returns
    have he : ConfigProxy.new .std 0 "3100, localhost\n" = some (.error .outOfRange) := rfl
    exact hne (Option.some.inj (hr.symm.trans he))
  · have he : ConfigProxy.new .std 0 "3100,\n" = some (.ok (3100, ⟨[]⟩)) := rfl
    obtain ⟨srvAddr, hs, _⟩ := h.chooses _ he (.init ⟨[]⟩) 0 rfl
    exact absurd hs List.not_mem_nil

end Proxy
