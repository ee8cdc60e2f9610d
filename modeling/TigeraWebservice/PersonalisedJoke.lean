import Mathlib.Data.List.TakeWhile
import TigeraWebservice.ClientResponse
import TigeraWebservice.JokeSubstitution
import TigeraWebservice.PlainMessages

/-!
# The personalised joke

`client_response_create` substitutes for "Eduardo" and then, in the text so
obtained, for "Panisset". A fetched name that spells the second token, or
completes one with the text around it, is therefore rewritten in turn.
-/

set_option autoImplicit false

namespace Tigera.PersonalisedJoke
open Substitution Tigera.JokeCreate Tigera.SessionWorld Tigera.SessionProgram
open Tigera.ClientResponse Tigera.JokeSubstitution Tigera.PlainMessages

variable {P : Type}

/-- The text after the first substitution. -/
def withName (name joke : Bytes) : Bytes := replace (literal "Eduardo") name joke

def personalised (name surname joke : Bytes) : Bytes :=
  replace (literal "Panisset") surname (withName name joke)

/-- The substitution for both tokens of the joke at once. -/
def personalisedAtOnce (name surname joke : Bytes) : Bytes :=
  replaceBoth (literal "Eduardo") name (literal "Panisset") surname joke

/-- C strings whose lengths, and those of both results, are lengths of an `int`. -/
structure Delivered (name surname joke : Bytes) : Prop where
  nameWhole : 0 ∉ name
  surnameWhole : 0 ∉ surname
  jokeWhole : 0 ∉ joke
  nameFits : name.length < 2 ^ 31
  surnameFits : surname.length < 2 ^ 31
  betweenFits : (withName name joke).length + 1 < 2 ^ 31
  resultFits : (personalised name surname joke).length + 1 < 2 ^ 31

theorem cString_eq {b : Bytes} (h : 0 ∉ b) : cString b = b := by
  rw [cString, List.takeWhile_eq_self_iff]
  intro c hc
  have hne : c ≠ 0 := fun h0 => h (h0 ▸ hc)
  simp [hne]

theorem jokeText_eq (joke token new : Bytes) (ht : 0 < token.length)
    (hnew : new.length < 2 ^ 31) : jokeText joke token new = replace token new joke := by
  rw [jokeText, int32_eq (x := new.length) (by omega) (by omega),
    jokeCreate_eq _ token new joke ht (int32 joke.length) (int32_int32 _), if_pos rfl]

theorem askedSize_eq (joke token new : Bytes) (ht : 0 < token.length) (hnew : new.length < 2 ^ 31)
    (hfit : (replace token new joke).length + 1 < 2 ^ 31) :
    askedSize joke token new = (replace token new joke).length + 1 := by
  have hn : int32 new.length = new.length := int32_eq (by omega) (by omega)
  obtain ⟨len, hlen, hx⟩ := countPass_eq token new.length ht (joke.length + 1) joke
    (int32 joke.length) (by omega)
  have hsize : int32 (len + 1) = int32 (newJokeLength token new joke) := by
    rw [hx, newJokeLength, add_assoc, int32_add, add_assoc]
  rw [newJokeLength_eq token new joke ht,
    int32_eq (x := (replace token new joke).length + 1) (by omega) (by omega)] at hsize
  rw [askedSize, hn, hlen]
  simp only [hsize, sizeT]
  omega

theorem withName_whole {name surname joke : Bytes} (h : Delivered name surname joke) :
    0 ∉ withName name joke := by
  intro h0
  rcases mem_replace (by decide) joke h0 with hin | hin
  · exact h.jokeWhole hin
  · exact h.nameWhole hin

theorem betweenText_eq {name surname joke : Bytes} (h : Delivered name surname joke) :
    cString (jokeText joke (literal "Eduardo") name) = withName name joke := by
  rw [jokeText_eq joke _ name (by decide) h.nameFits, ← withName, cString_eq (withName_whole h)]

theorem responseText_eq {name surname joke : Bytes} (h : Delivered name surname joke) :
    responseText name surname joke = personalised name surname joke := by
  have h2 : 0 ∉ personalised name surname joke := by
    intro h0
    rcases mem_replace (by decide) _ h0 with hin | hin
    · exact withName_whole h hin
    · exact h.surnameWhole hin
  rw [responseText, betweenText_eq h, jokeText_eq _ _ surname (by decide) h.surnameFits,
    ← personalised, cString_eq h2]

theorem literal_panisset : (69 : UInt8) ∉ literal "Panisset" := by decide

theorem tokens_apart : Apart (literal "Eduardo") (literal "Panisset") :=
  apart_of_notMem (c := 69) (t := [100, 117, 97, 114, 100, 111]) literal_panisset

theorem personalised_at_once {name surname joke : Bytes}
    (h : Untangled (literal "Eduardo") name (literal "Panisset") joke) :
    personalised name surname joke = personalisedAtOnce name surname joke :=
  replace_replace (by decide) (by decide) tokens_apart joke h

/-- What `client_response_create` returns: nothing when `malloc` refuses one of
the two texts, and else the joke with the tokens replaced one after the other. -/
theorem client_response_personalised (c : Choices) (w : World P) (name surname joke : CStr)
    (hn : w.session.name = some name) (hs : w.session.surname = some surname)
    (hj : w.session.joke = some joke)
    (hd : Delivered name.bytes surname.bytes joke.bytes) :
    ((clientResponseCreate c w).1 = none ∧
        (c.mallocFirst ((withName name.bytes joke.bytes).length + 1) = false ∨
          c.mallocSecond ((personalised name.bytes surname.bytes joke.bytes).length + 1) =
            false) ∨
      ∃ response, (clientResponseCreate c w).1 = some response ∧
        response.bytes = personalised name.bytes surname.bytes joke.bytes ∧
        (Untangled (literal "Eduardo") name.bytes (literal "Panisset") joke.bytes →
          response.bytes = personalisedAtOnce name.bytes surname.bytes joke.bytes)) := by
  have hfirst : askedSize joke.bytes (literal "Eduardo") name.bytes =
      (withName name.bytes joke.bytes).length + 1 :=
    askedSize_eq _ _ _ (by decide) hd.nameFits hd.betweenFits
  have hsecond : askedSize (withName name.bytes joke.bytes) (literal "Panisset") surname.bytes =
      (personalised name.bytes surname.bytes joke.bytes).length + 1 :=
    askedSize_eq _ _ _ (by decide) hd.surnameFits hd.resultFits
  rcases (clientResponseCreate_ready c hn hs hj).2 with hnone | ⟨⟨addr, hsome⟩, -⟩
  · rw [hfirst, betweenText_eq hd, hsecond] at hnone
    exact .inl hnone
  · right
    have hbytes := responseText_eq hd
    exact ⟨_, hsome, hbytes, fun hu => hbytes.trans (personalised_at_once hu)⟩

def replied (name surname joke : String) : World Core :=
  { initial libs true with
    nextStr := 3
    session := { name := some ⟨0, literal name⟩
                 surname := some ⟨1, literal surname⟩
                 joke := some ⟨2, literal joke⟩ } }

theorem client_response_ana :
    ∃ response, (clientResponseCreate {} (replied "Ana" "Diaz" "Eduardo Panisset codes")).1 =
        some response ∧ response.bytes = literal "Ana Diaz codes" := by
  rcases client_response_personalised {} (replied "Ana" "Diaz" "Eduardo Panisset codes")
      ⟨0, literal "Ana"⟩ ⟨1, literal "Diaz"⟩ ⟨2, literal "Eduardo Panisset codes"⟩ rfl rfl rfl
      ⟨by decide, by decide, by decide, by decide, by decide, by decide, by decide⟩ with
    ⟨-, hk | hk⟩ | ⟨response, hr, hb, -⟩
  · cases hk
  · cases hk
  · exact ⟨response, hr, hb.trans (by decide)⟩

/-- The name "Panisset" is itself replaced by the surname. -/
theorem fetched_name_rewritten :
    ¬ ∀ (c : Choices) (w : World Core) (name surname joke response : CStr),
      w.session.name = some name → w.session.surname = some surname →
      w.session.joke = some joke → Delivered name.bytes surname.bytes joke.bytes →
      (clientResponseCreate c w).1 = some response →
      response.bytes = personalisedAtOnce name.bytes surname.bytes joke.bytes := by
  intro h
  have hr : (clientResponseCreate {} (replied "Panisset" "Lima" "Eduardo")).1 =
      some ⟨4, literal "Lima"⟩ := by decide +kernel
  have hb := h {} _ _ _ _ _ rfl rfl rfl
    ⟨by decide, by decide, by decide, by decide, by decide, by decide, by decide⟩ hr
  revert hb
  decide

end Tigera.PersonalisedJoke
