import IronClaw.HttpApproval
import IronClaw.McpTransport
import IronClaw.Lib.BytePositions
import IronClaw.Lib.Lines
import IronClaw.Lib.Utf8Stream

/-!
# Responses over server-sent events

The reader of an event stream in `tools/mcp/http_transport.rs` decodes each
chunk by itself, carries an unfinished line over to the next chunk, and ends at
the first event whose data is a response with the id of the request. The reader
of JSON is a parameter.
-/

set_option autoImplicit false

namespace IronClaw.SseResponse
open IronClaw.HttpApproval IronClaw.McpTransport Lib.Text Lib.Utf8 Lib.Lines

def maxSseBuffer : ℕ := 10*1024*1024

def stripData (line : List Char) : Option (List Char) :=
  if "data: ".toList.isPrefixOf line then some (line.drop "data: ".toList.length) else none

section

variable (read : List Char → Option McpResponse) (requestId : Option ℕ)

def answerTo (json : List Char) : Option McpResponse :=
  (read json).filter (fun resp => resp.id == requestId)

def lineAnswer (line : List Char) : Option McpResponse :=
  (stripData line).bind (answerTo read requestId)

def scan (line : List Char) : List Char → McpResponse ⊕ List Char
  | [] => .inr line
  | c::cs =>
    if c = '\n' then
      match lineAnswer read requestId line with
      | some resp => .inl resp
      | none => scan [] cs
    else scan (line++[c]) cs

def noMatch (serverName : String) : ToolError :=
  .externalService ("[" ++ serverName ++ "] No matching response (id=" ++
    Transport.idText requestId ++ ") in SSE stream")

def finish (serverName : String) (buffer : List Char) : Except ToolError McpResponse :=
  match (stripData buffer).bind (fun json => answerTo read requestId (trimChars json)) with
  | some resp => .ok resp
  | none => .error (noMatch requestId serverName)

def parseSseResponse (serverName : String) (buffer : List Char) :
    List (Except String (List UInt8)) → Except ToolError McpResponse
  | [] => finish read requestId serverName buffer
  | .error e::_ =>
    .error (.externalService ("[" ++ serverName ++ "] Failed to read SSE chunk: " ++ e))
  | .ok chunk::rest =>
    if maxSseBuffer < byteLen (buffer++lossy chunk) then
      .error (.externalService ("[" ++ serverName ++ "] SSE response exceeded " ++
        toString maxSseBuffer ++ " byte limit"))
    else
      match scan read requestId [] (buffer++lossy chunk) with
      | .inl resp => .ok resp
      | .inr remaining => parseSseResponse serverName remaining rest

def firstResponse (text : List Char) : Option McpResponse :=
  (lines text).findSome? (lineAnswer read requestId)

def outcome (serverName : String) : Option McpResponse → Except ToolError McpResponse
  | some resp => .ok resp
  | none => .error (noMatch requestId serverName)

/-! ## What the text decides -/

def jsonBlank (c : Char) : Bool := c = ' ' || c = '\t' || c = '\n' || c = '\r'

def Blanks : Prop :=
  ∀ a json b, (∀ c ∈ a++b, jsonBlank c = true) → read (a++json++b) = read json

def PlainEnd (text : List Char) : Prop :=
  ∀ before json, text = before++("data: ".toList++json) →
    (before = [] ∨ before.getLast? = some '\n') → '\n' ∉ json →
      answerTo read requestId (trimChars json) = answerTo read requestId json

def Intact (text : List Char) (cuts : List (List UInt8)) : Prop :=
  ((∀ chunk ∈ cuts, Whole chunk) ∧ PlainEnd read requestId text) ∨
  ∃ before piece tail after front, cuts = before++(encode piece++tail)::after ∧
    (∀ chunk ∈ before, Whole chunk) ∧
    before.flatten++encode piece = encode (front++['\n']) ∧
    (firstResponse read requestId (front++['\n'])).isSome = true

theorem scan_append (line p q : List Char) :
    scan read requestId line (p++q) =
      match scan read requestId line p with
      | .inl resp => .inl resp
      | .inr remaining => scan read requestId remaining q := by
  induction p generalizing line with
  | nil => rfl
  | cons c p ih =>
    rw [List.cons_append, scan, scan]
    split
    · cases lineAnswer read requestId line with
      | some resp => rfl
      | none => exact ih []
    · exact ih _

theorem scan_unfinished (line cs : List Char) (h : '\n' ∉ cs) :
    scan read requestId line cs = .inr (line++cs) := by
  induction cs generalizing line with
  | nil => rw [scan, List.append_nil]
  | cons c cs ih =>
    have hc : c ≠ '\n' := fun heq => h (heq ▸ List.mem_cons_self)
    rw [scan, if_neg hc, ih _ (fun hin => h (List.mem_cons_of_mem c hin)), List.append_assoc,
      List.singleton_append]

theorem scan_fed (buffer cs : List Char) (h : '\n' ∉ buffer) :
    scan read requestId [] (buffer++cs) = scan read requestId buffer cs := by
  rw [scan_append, scan_unfinished read requestId [] buffer h, List.nil_append]

theorem scan_line (x y : List Char) (hx : '\n' ∉ x) :
    scan read requestId [] (x++ '\n'::y) =
      match lineAnswer read requestId x with
      | some resp => .inl resp
      | none => scan read requestId [] y := by
  rw [scan_fed read requestId x _ hx, scan, if_pos rfl]

/-- What is carried over is one unfinished line and no longer than the text. -/
theorem scan_carried (line cs remaining : List Char) (hline : '\n' ∉ line)
    (h : scan read requestId line cs = .inr remaining) :
    '\n' ∉ remaining ∧ byteLen remaining ≤ byteLen line+byteLen cs := by
  induction cs generalizing line with
  | nil =>
    cases h
    exact ⟨hline, Nat.le_add_right _ _⟩
  | cons c cs ih =>
    rw [scan] at h
    split at h
    · split at h
      · cases h
      · obtain ⟨hnone, hlen⟩ := ih [] List.not_mem_nil h
        refine ⟨hnone, ?_⟩
        simp only [byteLen] at hlen ⊢
        omega
    · rename_i hc
      have hlonger : '\n' ∉ line++[c] := by
        simp [hline, Ne.symm hc]
      obtain ⟨hnone, hlen⟩ := ih _ hlonger h
      refine ⟨hnone, ?_⟩
      rw [byteLen_append] at hlen
      simp only [byteLen] at hlen ⊢
      omega

/-- How the chunks are cut does not matter, what they are read as does. -/
theorem parse_chunks (serverName : String) (buffer : List Char) (chunks : List (List UInt8))
    (rest : List (Except String (List UInt8))) (hbuffer : '\n' ∉ buffer)
    (hlen : byteLen buffer+byteLen (chunks.map lossy).flatten ≤ maxSseBuffer) :
    parseSseResponse read requestId serverName buffer (chunks.map Except.ok++rest) =
      match scan read requestId buffer (chunks.map lossy).flatten with
      | .inl resp => .ok resp
      | .inr remaining => parseSseResponse read requestId serverName remaining rest := by
  induction chunks generalizing buffer with
  | nil => rfl
  | cons chunk chunks ih =>
    rw [List.map_cons, List.flatten_cons, byteLen_append] at hlen
    rw [List.map_cons, List.map_cons, List.flatten_cons, List.cons_append, parseSseResponse, if_neg]
    · rw [scan_fed read requestId buffer _ hbuffer, scan_append]
      cases hscan : scan read requestId buffer (lossy chunk) with
      | inl resp => rfl
      | inr remaining =>
        obtain ⟨hnone, hshort⟩ := scan_carried read requestId buffer _ remaining hbuffer hscan
        exact ih remaining hnone (by omega)
    · rw [byteLen_append]
      omega

/-! ## Lines and their endings -/

theorem stripData_carriage (l : List Char) :
    stripData (l++['\r']) = (stripData l).map (fun json => json++['\r']) := by
  have hiff : "data: ".toList.isPrefixOf (l++['\r']) = "data: ".toList.isPrefixOf l := by
    rw [Bool.eq_iff_iff, List.isPrefixOf_iff_prefix, List.isPrefixOf_iff_prefix]
    constructor
    · intro hpre
      rcases List.prefix_concat_iff.mp hpre with heq | hin
      · have hlast := congrArg List.getLast? heq
        rw [List.getLast?_concat] at hlast
        exact absurd hlast (by decide)
      · exact hin
    · exact fun hpre => hpre.trans (List.prefix_append l _)
  unfold stripData
  rw [hiff]
  split
  · rename_i hpre
    have hlen := (List.isPrefixOf_iff_prefix.mp hpre).length_le
    rw [List.drop_append_of_le_length hlen]
    rfl
  · rfl

variable (blanks : Blanks read)

include blanks

/-- A carriage return before the line feed does not change the answer. -/
theorem lineAnswer_ending (x : List Char) :
    lineAnswer read requestId (lineOf (x++['\n'])) = lineAnswer read requestId x := by
  rw [lineOf_line]
  split
  · rename_i hlast
    obtain ⟨l, rfl⟩ := List.getLast?_eq_some_iff.mp hlast
    rw [List.dropLast_concat]
    unfold lineAnswer
    rw [stripData_carriage, Option.bind_map]
    congr 1
    funext json
    have hread := blanks [] json ['\r'] (by simp [jsonBlank])
    show answerTo read requestId json = answerTo read requestId (json++['\r'])
    rw [answerTo, answerTo, ← hread]
    rfl
  · rfl

variable (serverName : String)

omit blanks in
theorem finish_plain (x : List Char) (hx : '\n' ∉ x) (hend : PlainEnd read requestId x) :
    finish read requestId serverName x =
      outcome requestId serverName (firstResponse read requestId x) := by
  have htrim : (stripData x).bind (fun json => answerTo read requestId (trimChars json)) =
      lineAnswer read requestId x := by
    unfold lineAnswer stripData
    split
    · rename_i hpre
      obtain ⟨json, rfl⟩ := List.isPrefixOf_iff_prefix.mp hpre
      rw [List.drop_left]
      have hjson : '\n' ∉ json := fun hin => hx (List.mem_append_right _ hin)
      exact hend [] json rfl (Or.inl rfl) hjson
    · rfl
  have hone : firstResponse read requestId x = lineAnswer read requestId x := by
    by_cases hnil : x = []
    · rw [hnil]
      rfl
    · rw [firstResponse, lines, pieces_last x hx hnil, List.map_singleton, lineOf_last x hx]
      simp [List.findSome?]
      cases lineAnswer read requestId x <;> rfl
  rw [finish, htrim, hone]
  cases lineAnswer read requestId x <;> rfl

omit blanks in
theorem plainEnd_later (x y : List Char) (h : PlainEnd read requestId (x++ '\n'::y)) :
    PlainEnd read requestId y := by
  intro before json hy hbefore hjson
  refine h (x++ '\n'::before) json (by rw [hy]; simp) (Or.inr ?_) hjson
  rcases hbefore with rfl | hlast
  · simp
  · rw [List.getLast?_append_cons]
    cases before with
    | nil => cases hlast
    | cons c before => rwa [List.getLast?_cons_cons]

theorem first_line_response (x y : List Char) (hx : '\n' ∉ x) :
    firstResponse read requestId (x++ '\n'::y) =
      (lineAnswer read requestId x).or (firstResponse read requestId y) := by
  rw [firstResponse, lines, pieces_line x y hx, List.map_cons, List.findSome?_cons,
    lineAnswer_ending read requestId blanks]
  cases lineAnswer read requestId x <;> rfl

/-- The pass over a whole text finds its first response. -/
theorem scan_text (text : List Char) (hend : PlainEnd read requestId text) :
    (match scan read requestId [] text with
      | .inl resp => .ok resp
      | .inr remaining => finish read requestId serverName remaining) =
      outcome requestId serverName (firstResponse read requestId text) := by
  induction text using line_induction with
  | last x hx =>
    rw [scan_unfinished read requestId [] x hx]
    exact finish_plain read requestId serverName x hx hend
  | step x y hx ih =>
    rw [scan_line read requestId x y hx, first_line_response read requestId blanks x y hx]
    cases lineAnswer read requestId x with
    | some resp => rfl
    | none => exact ih (plainEnd_later read requestId x y hend)

/-- A response on a line that is ended is found whatever comes behind it. -/
theorem scan_answered (front more : List Char) (resp : McpResponse)
    (h : firstResponse read requestId (front++['\n']) = some resp) :
    scan read requestId [] (front++ '\n'::more) = .inl resp := by
  induction front using line_induction with
  | last x hx =>
    rw [first_line_response read requestId blanks x [] hx] at h
    rw [scan_line read requestId x more hx]
    cases hline : lineAnswer read requestId x with
    | some found =>
      rw [hline] at h
      rw [Option.some.inj h]
    | none =>
      rw [hline] at h
      cases h
  | step x y hx ih =>
    rw [List.append_assoc, List.cons_append] at h ⊢
    rw [first_line_response read requestId blanks x _ hx] at h
    rw [scan_line read requestId x _ hx]
    cases hline : lineAnswer read requestId x with
    | some found =>
      rw [hline] at h
      rw [Option.some.inj h]
    | none =>
      rw [hline] at h
      exact ih h

theorem parse_whole (text : List Char) (cuts : List (List UInt8))
    (hcuts : cuts.flatten = encode text) (hlen : (encode text).length < maxSseBuffer)
    (hwhole : ∀ chunk ∈ cuts, Whole chunk) (hend : PlainEnd read requestId text) :
    parseSseResponse read requestId serverName [] (cuts.map Except.ok) =
      outcome requestId serverName (firstResponse read requestId text) := by
  have htext := (lossy_pieces cuts text hcuts).mpr hwhole
  have hchunks := parse_chunks read requestId serverName [] cuts [] List.not_mem_nil (by
    rw [htext, ← Lib.BytePositions.length_encode text, byteLen]
    omega)
  rw [List.append_nil, htext] at hchunks
  exact hchunks.trans (scan_text read requestId blanks serverName text hend)

/-- The answering line is read before anything torn behind it. -/
theorem parse_answered (text front piece : List Char) (before after : List (List UInt8))
    (tail : List UInt8) (hcuts : (before++(encode piece++tail)::after).flatten = encode text)
    (hlen : (encode text).length < maxSseBuffer) (hwhole : ∀ chunk ∈ before, Whole chunk)
    (hfront : before.flatten++encode piece = encode (front++['\n']))
    (hsome : (firstResponse read requestId (front++['\n'])).isSome = true) :
    parseSseResponse read requestId serverName []
        ((before++(encode piece++tail)::after).map Except.ok) =
      outcome requestId serverName (firstResponse read requestId text) := by
  obtain ⟨resp, hresp⟩ := Option.isSome_iff_exists.mp hsome
  have hbefore := same_of_whole before hwhole
  generalize hread : (before.map lossy).flatten = read' at hbefore
  have hpieces : read'++piece = front++['\n'] := by
    refine encode_injective _ _ ?_
    rw [encode_append, hbefore, hfront]
  rw [List.flatten_append, List.flatten_cons] at hcuts
  have htext : text = front++ '\n'::lossy (tail++after.flatten) := by
    have hall : encode (front++['\n'])++(tail++after.flatten) = encode text := by
      rw [← hfront, ← hcuts]
      simp
    rw [← lossy_encode text, ← hall, lossy_encoded]
    simp
  obtain ⟨rest, hrest⟩ : ∃ rest, text = read'++rest :=
    ⟨piece++lossy (tail++after.flatten), by rw [htext, ← List.append_assoc, hpieces]; simp⟩
  have htail : (encode piece++tail)++after.flatten = encode rest := by
    rw [hrest, encode_append, ← hbefore] at hcuts
    exact List.append_cancel_left hcuts
  have hshort := lossy_cut _ _ rest htail
  have hsize : (encode text).length = byteLen read'+(encode rest).length := by
    rw [hrest, encode_append, List.length_append, Lib.BytePositions.length_encode]
  have hfirst : firstResponse read requestId text = some resp := by
    rw [htext, firstResponse, lines_append, List.findSome?_append]
    rw [firstResponse] at hresp
    rw [hresp]
    rfl
  have hfound : scan read requestId [] (read'++(piece++lossy tail)) = .inl resp := by
    rw [← List.append_assoc, hpieces, List.append_assoc]
    exact scan_answered read requestId blanks front (lossy tail) resp hresp
  rw [hfirst, List.map_append, parse_chunks read requestId serverName [] before _
    List.not_mem_nil (by rw [hread, byteLen]; omega), hread]
  rw [scan_append] at hfound
  cases hscan : scan read requestId [] read' with
  | inl found =>
    rw [hscan] at hfound
    rw [Sum.inl.inj hfound]
    rfl
  | inr remaining =>
    rw [hscan] at hfound
    obtain ⟨hnone, hcarried⟩ :=
      scan_carried read requestId [] read' remaining List.not_mem_nil hscan
    rw [byteLen] at hcarried
    rw [Lib.BytePositions.length_encode] at hshort
    replace hfound : scan read requestId remaining (piece++lossy tail) = .inl resp := hfound
    dsimp only
    rw [List.map_cons, parseSseResponse, if_neg, scan_fed read requestId remaining _ hnone,
      lossy_encoded, hfound]
    · rfl
    · rw [byteLen_append]
      omega

end

/-- A stream of which no character is torn before it is answered has the first
event line that is a response to the request for its answer, however it is cut. -/
theorem cutting_free (read : List Char → Option McpResponse) (blanks : Blanks read)
    (serverName : String) (requestId : Option ℕ) (text : List Char)
    (cuts cuts' : List (List UInt8)) (hcuts : cuts.flatten = encode text)
    (hcuts' : cuts'.flatten = encode text) (hlen : (encode text).length < maxSseBuffer)
    (hintact : Intact read requestId text cuts) (hintact' : Intact read requestId text cuts') :
    parseSseResponse read requestId serverName [] (cuts.map Except.ok) =
        outcome requestId serverName (firstResponse read requestId text) ∧
      parseSseResponse read requestId serverName [] (cuts'.map Except.ok) =
        outcome requestId serverName (firstResponse read requestId text) := by
  have hone : ∀ chunks : List (List UInt8), chunks.flatten = encode text →
      Intact read requestId text chunks →
      parseSseResponse read requestId serverName [] (chunks.map Except.ok) =
        outcome requestId serverName (firstResponse read requestId text) := by
    rintro chunks hchunks
      (⟨hwhole, hend⟩ | ⟨before, piece, tail, after, front, rfl, hwhole, hfront, hsome⟩)
    · exact parse_whole read requestId blanks serverName text chunks hchunks hlen hwhole hend
    · exact parse_answered read requestId blanks serverName text front piece before after tail
        hchunks hlen hwhole hfront hsome
  exact ⟨hone cuts hcuts hintact, hone cuts' hcuts' hintact'⟩

/-! ## A reader of one kind of response -/

def bare (json : List Char) : List Char := (json.dropWhile jsonBlank).rdropWhile jsonBlank

def lead : List Char := "\x7b\"jsonrpc\":\"2.0\",\"id\":1,\"result\":\"".toList

def textReader (json : List Char) : Option McpResponse :=
  let cs := bare json
  let inner := (cs.drop lead.length).dropLast.dropLast
  if cs = lead++inner++['"', '\x7d'] ∧
      inner.all (fun c => c ≠ '"' ∧ c ≠ '\\' ∧ 32 ≤ c.toNat) = true then
    some ⟨"2.0", some 1, some (.string (String.ofList inner)), none⟩
  else none

theorem rdropWhile_blank (cs b : List Char) (hb : ∀ c ∈ b, jsonBlank c = true) :
    (cs++b).rdropWhile jsonBlank = cs.rdropWhile jsonBlank := by
  induction b using List.reverseRecOn with
  | nil => rw [List.append_nil]
  | append_singleton b c ih =>
    rw [← List.append_assoc, List.rdropWhile_concat_pos _ _ _ (hb c (by simp))]
    exact ih (fun d hd => hb d (List.mem_append_left _ hd))

theorem bare_blanks (a json b : List Char) (h : ∀ c ∈ a++b, jsonBlank c = true) :
    bare (a++json++b) = bare json := by
  have ha : ∀ c ∈ a, jsonBlank c = true := fun c hc => h c (List.mem_append_left _ hc)
  have hb : ∀ c ∈ b, jsonBlank c = true := fun c hc => h c (List.mem_append_right _ hc)
  unfold bare
  rw [List.append_assoc, List.dropWhile_append_of_pos ha, List.dropWhile_append]
  split
  · rename_i hnil
    rw [List.isEmpty_iff.mp hnil, List.dropWhile_eq_nil_iff.mpr hb]
  · exact rdropWhile_blank _ b hb

theorem textReader_blanks : Blanks textReader := by
  intro a json b h
  unfold textReader
  rw [bare_blanks a json b h]

theorem plainEnd_ended (read : List Char → Option McpResponse) (requestId : Option ℕ)
    (text : List Char) (h : text.getLast? = some '\n') : PlainEnd read requestId text := by
  intro before json htext _ hjson
  cases json with
  | nil =>
    have hspace : "data: ".toList.getLast? = some ' ' := by decide
    rw [htext, List.append_nil, List.getLast?_append, hspace] at h
    exact absurd (Option.some.inj h) (by decide)
  | cons c json =>
    rw [htext, ← List.append_assoc, List.getLast?_append_cons] at h
    exact absurd (List.mem_of_getLast? h) hjson

def greeting : List Char := "data: ".toList++(lead++"\u00e9\"\x7d\r\n".toList)

def greeted (text : String) : McpResponse := ⟨"2.0", some 1, some (.string text), none⟩

def chatty : List Char := greeting++": \u00e9\n".toList

/-- Cut between characters, and in a character behind the response. -/
theorem greeting_cut :
    parseSseResponse textReader (some 1) "s" []
          ([encode (chatty.take 9), [], encode (chatty.drop 9)].map Except.ok) =
        outcome (some 1) "s" (firstResponse textReader (some 1) chatty) ∧
      parseSseResponse textReader (some 1) "s" []
          ([encode (greeting.take 9), encode (greeting.drop 9)++[58, 32, 195], [169, 10]].map
            Except.ok) =
        outcome (some 1) "s" (firstResponse textReader (some 1) chatty) := by
  apply cutting_free textReader textReader_blanks "s" (some 1) chatty
  · decide +kernel
  · decide +kernel
  · decide +kernel
  · refine .inl ⟨fun chunk hchunk => ?_, plainEnd_ended textReader (some 1) chatty (by decide)⟩
    simp only [List.mem_cons, List.not_mem_nil, or_false] at hchunk
    rcases hchunk with rfl | rfl | rfl
    · exact ⟨_, rfl⟩
    · exact ⟨[], rfl⟩
    · exact ⟨_, rfl⟩
  · refine .inr ⟨[encode (greeting.take 9)], greeting.drop 9, [58, 32, 195], [[169, 10]],
      greeting.dropLast, rfl, fun chunk hchunk => ⟨_, List.mem_singleton.mp hchunk⟩, ?_, ?_⟩
    · decide +kernel
    · decide +kernel

/-- The same stream cut inside a character gives another response. -/
theorem greeting_torn :
    [(encode greeting).take (6+lead.length+1), (encode greeting).drop (6+lead.length+1)].flatten =
        encode greeting ∧ (encode greeting).length < maxSseBuffer ∧
      parseSseResponse textReader (some 1) "s" [] ([encode greeting].map Except.ok) =
        .ok (greeted "\u00e9") ∧
      parseSseResponse textReader (some 1) "s" []
          ([(encode greeting).take (6+lead.length+1),
            (encode greeting).drop (6+lead.length+1)].map Except.ok) =
        .ok (greeted "\uFFFD\uFFFD") := by
  decide +kernel

end IronClaw.SseResponse
