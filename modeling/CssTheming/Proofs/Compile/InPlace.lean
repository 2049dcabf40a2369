import CssTheming.Proofs.Compile.Component
import CssTheming.Proofs.Compile.Reference
import CssTheming.Proofs.Value.Frame
import CssTheming.Proofs.Value.Padding

/-!
# Values rewritten in place

A value that leaves nothing open is its frame with the texts of its config calls put in. Rewriting
keeps the frame: references take the place of the calls, or the calls keep their names and the white
space inside of their parentheses and get other arguments.
-/

namespace CssTheming.Compile

open Value

variable {options : Options} {component property value key : String} {n : Value.Node}

/-! ## Arguments -/

theorem firm_of_isResolved (h : Key.isResolved key = true) : Firm key := by
  refine firm_of_forall ?_ fun c hc => ?_
  · rintro rfl
    exact absurd h (by decide)
  · exact (not_special_of_not_endsWord (plainText_of_isResolved h c hc).1).1

theorem firm_of_isValid (h : Key.isValid key = true) : Firm key := by
  rw [Key.isValid, Bool.or_eq_true] at h
  rcases h with h | h
  · exact firm_of_isResolved h
  · obtain ⟨rest, rfl, hrest⟩ := Key.isRooted_iff.1 h
    obtain ⟨r, c, htext, hc⟩ := (firm_of_isResolved hrest).last
    exact ⟨⟨'/', rest.toList, by simp, by decide⟩, ⟨'/' :: r, c, by simp [htext], hc⟩⟩

theorem firm_string {quote : Char} (hquote : quote = '"' ∨ quote = '\'') (v : String) :
    Firm (Node.string v quote).text := by
  have hspace : Text.isWhitespace quote = false := by rcases hquote with rfl | rfl <;> decide
  exact ⟨⟨quote, v.toList ++ [quote], by simp [Node.text], hspace⟩,
    ⟨quote :: v.toList, quote, by simp [Node.text], hspace⟩⟩

theorem firm_keyNode {args : List Value.Node} (hargs : AllParsed args)
    (h : Key.isValid key = true) : Firm (keyNode args key).text := by
  rw [keyNode]
  split
  · exact firm_of_isValid h
  · rename_i v quote hfind
    exact firm_string (allParsed_iff.1 hargs _ (List.mem_of_find?_eq_some hfind)) key
  · exact firm_string (.inr rfl) key

theorem firm_comment (v : String) : Firm (Node.comment v).text :=
  ⟨⟨'/', '*' :: (v.toList ++ ['*', '/']), by simp [Node.text], by decide⟩,
    ⟨'/' :: '*' :: (v.toList ++ ['*']), '/', by simp [Node.text], by decide⟩⟩

theorem givenKey?_of_word {v : String}
    (h : n.args.filter (fun m => !m.isTrivia) = [.word v]) : givenKey? n = some v := by
  cases n with
  | call name before after args key =>
    rw [Node.args] at h
    rw [givenKey?, h]
  | _ => cases h

/-- The white space directly inside of the parentheses is no part of what an accepted call has as
arguments. -/
theorem Accepted.trim_text (h : Accepted property n) (hparsed : AllParsed n.args)
    (htrimmed : Trimmed n.args) : Text.trim (text n.args).toList = (text n.args).toList := by
  refine htrimmed.trim_text fun m hm hspace => ?_
  by_cases htrivia : m.isTrivia = true
  · cases m with
    | comment v => exact firm_comment v
    | space v => cases hspace
    | _ => cases htrivia
  have hgiven : m ∈ n.args.filter fun m => !m.isTrivia :=
    List.mem_filter.2 ⟨hm, by simp [htrivia]⟩
  rcases h.sole with hnone | ⟨v, hword⟩ | ⟨v, quote, hstring⟩
  · rw [hnone] at hgiven
    cases hgiven
  · rw [hword] at hgiven
    obtain rfl := List.mem_singleton.1 hgiven
    have hvalid := h.valid
    rw [calledKey, givenKey?_of_word hword] at hvalid
    exact firm_of_isValid hvalid
  · rw [hstring] at hgiven
    obtain rfl := List.mem_singleton.1 hgiven
    exact firm_string (allParsed_iff.1 hparsed _ hm) v

/-- Texts of calls of a function that have the same white space directly inside of the
parentheses. -/
def SamePadding (function call call' : String) : Prop :=
  ∃ before argument argument' after : String,
    IsSpace before.toList ∧ IsSpace after.toList ∧
    Text.trim argument.toList = argument.toList ∧ Text.trim argument'.toList = argument'.toList ∧
    call = function ++ "(" ++ before ++ argument ++ after ++ ")" ∧
    call' = function ++ "(" ++ before ++ argument' ++ after ++ ")"

theorem Accepted.samePadding (h : Accepted property n)
    (hvalue : n ∈ callsOf options.configKeyword (parse value))
    (hfull : Key.isValid (Key.within component (calledKey property n)) = true) :
    SamePadding options.configKeyword n.text (expandedCall component property n).text := by
  obtain ⟨hpadded, -⟩ :=
    of_mem_callsOf (fun _ => Node.Padded.args) _ (allPadded_iff.1 (allPadded_parse value)) hvalue
  obtain ⟨hparsed, before, after, args, rfl⟩ :=
    exists_of_mem_callsOf _ (allParsed_parse value) hvalue
  obtain ⟨⟨-, hbefore, hafter, -⟩, hparsed⟩ := hparsed
  have hkey := (firm_keyNode hparsed hfull).trim_eq
  refine ⟨before, text args, _, after, hbefore, hafter, h.trim_text hparsed hpadded.1, hkey, ?_, ?_⟩
  · rw [Node.text]
  · rw [expandedCall, Node.text, text, text, String.append_empty]

/-! ## Values -/

/-- Whatever a value that leaves nothing open is rewritten to, the text around its calls stays. -/
theorem exists_frame_rewritten (options : Options) {value : String}
    (hclosed : (unclosed value).part = none ∧ (unclosed value).calls = 0) :
    let calls := callsOf options.configKeyword (parse value)
    ∃ frame : Frame, frame.rest.length = calls.length ∧
      value = frame.fill (calls.map Node.text) ∧
      (∀ location property value' keys,
        referValue options location property value = .ok (value', keys) →
        allCallsOf options.configKeyword (parse value) = calls ∧
          keys = calls.map (referredKey property) ∧
          value' = frame.fill (keys.map fun key =>
            "var(" ++ CustomProperty.name options.propertyPrefix key ++ ")")) ∧
      ∀ location component property value',
        expandValue options location component property value = .ok value' →
        allCallsOf options.configKeyword (parse value) = calls ∧
          value' = frame.fill (calls.map fun n => (expandedCall component property n).text) ∧
          ∀ n ∈ calls, SamePadding options.configKeyword n.text
            (expandedCall component property n).text := by
  intro calls
  have htext : text (parse value) = value := by
    rw [text_parse_eq, close_eq_empty_iff.2 hclosed, String.append_empty]
  obtain ⟨frame, hlength, hvalue, hreplaced⟩ := exists_frame options.configKeyword (parse value)
  rw [htext] at hvalue
  refine ⟨frame, hlength, hvalue, ?_, ?_⟩
  · intro location property value' keys h
    obtain ⟨rfl, rfl, haccepted⟩ := referValue_eq_ok h
    refine ⟨allCallsOf_eq _ fun n hn => (haccepted n hn).allCallsOf_args _, rfl, ?_⟩
    rw [hreplaced, List.map_map]
    simp [Function.comp_def, referenceOf, reference, referenceFunction, Node.text, text]
  · intro location component property value' h
    obtain ⟨rfl, haccepted⟩ := expandValue_eq_ok h
    refine ⟨allCallsOf_eq _ fun n hn => (haccepted n hn).1.allCallsOf_args _, hreplaced _, ?_⟩
    exact fun n hn => (haccepted n hn).1.samePadding hn (haccepted n hn).2

/-- A call inside of another function, and an empty one in front of a string. -/
theorem exists_frame_rewritten_nested :
    let value := "calc( cfg( \"a.b\" /* x */ ) * 2 ) cfg() \"cfg(\""
    (unclosed value).part = none ∧ (unclosed value).calls = 0 ∧
      ∃ frame : Frame, value = frame.fill ["cfg( \"a.b\" /* x */ )", "cfg()"] ∧
        referValue {} ⟨"a.css", ⟨1, 1⟩⟩ "width" value =
          .ok (frame.fill ["var(--makeup-a\\.b)", "var(--makeup-width)"], ["a.b", "width"]) ∧
        expandValue {} ⟨"a.css", ⟨1, 1⟩⟩ "button" "width" value =
          .ok (frame.fill ["cfg( \"button.a.b\" )", "cfg('button.width')"]) := by
  intro value
  have hclosed : (unclosed value).part = none ∧ (unclosed value).calls = 0 := by decide +kernel
  obtain ⟨frame, -, hvalue, hrefer, hexpand⟩ := exists_frame_rewritten {} hclosed
  have hreferred : referValue {} ⟨"a.css", ⟨1, 1⟩⟩ "width" value =
      .ok ("calc( var(--makeup-a\\.b) * 2 ) var(--makeup-width) \"cfg(\"", ["a.b", "width"]) := by
    decide +kernel
  have hexpanded : expandValue {} ⟨"a.css", ⟨1, 1⟩⟩ "button" "width" value =
      .ok "calc( cfg( \"button.a.b\" ) * 2 ) cfg('button.width') \"cfg(\"" := by
    decide +kernel
  have hcalls : (callsOf "cfg" (parse value)).map Node.text =
      ["cfg( \"a.b\" /* x */ )", "cfg()"] := by decide +kernel
  have hnames : ["a.b", "width"].map (fun key =>
      "var(" ++ CustomProperty.name "makeup-" key ++ ")") =
      ["var(--makeup-a\\.b)", "var(--makeup-width)"] := by decide +kernel
  have hexpandedCalls : ((callsOf "cfg" (parse value)).map fun n =>
      (expandedCall "button" "width" n).text) =
      ["cfg( \"button.a.b\" )", "cfg('button.width')"] := by decide +kernel
  refine ⟨hclosed.1, hclosed.2, frame, hcalls ▸ hvalue, ?_, ?_⟩
  · rw [hreferred, (hrefer _ _ _ _ hreferred).2.2]
    exact congrArg (fun texts => Except.ok (frame.fill texts, ["a.b", "width"])) hnames
  · rw [hexpanded, (hexpand _ _ _ _ hexpanded).2.1]
    exact congrArg (fun texts => Except.ok (frame.fill texts)) hexpandedCalls

end CssTheming.Compile
