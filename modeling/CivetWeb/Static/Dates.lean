import CivetWeb.Lib.Calendar
import CivetWeb.Static.Range

namespace CivetWeb

/-- `struct tm`, as far as it is read or written. -/
structure Tm where
  tmSec : Int
  tmMin : Int
  tmHour : Int
  tmMday : Int
  tmMon : Int
  tmYear : Int
  tmWday : Int
  deriving DecidableEq, Repr

def isLeap (y : Int) : Bool := (y.tmod 4 == 0 && y.tmod 100 != 0) || y.tmod 400 == 0

def countLeap (y : Int) : Int := (y - 1969).tdiv 4 - (y - 1901).tdiv 100 + (y - 1601).tdiv 400

/-- `ydays` -/
def ydays (mon : Int) : Int := [0, 31, 59, 90, 120, 151, 181, 212, 243, 273, 304, 334, 365].getD mon.toNat 0

def timegm (tm : Tm) : Int :=
  let year := tm.tmYear + 1900
  let mon := tm.tmMon
  let mday := tm.tmMday - 1
  if year < 1970 ∨ mon < 0 ∨ 11 < mon ∨ mday < 0 ∨
      ydays (mon + 1) - ydays mon + (if mon = 1 ∧ isLeap year then 1 else 0) ≤ mday ∨
      tm.tmHour < 0 ∨ 23 < tm.tmHour ∨ tm.tmMin < 0 ∨ 59 < tm.tmMin ∨ tm.tmSec < 0 ∨ 60 < tm.tmSec then -1
  else
    let res := (year - 1970) * 365 + mday + (ydays mon + if 1 < mon ∧ isLeap year then 1 else 0) + countLeap year
    ((res * 24 + tm.tmHour) * 60 + tm.tmMin) * 60 + tm.tmSec

/-- The parts of a format of `sscanf`. -/
inductive DateDirective where
  /-- A character that is neither a blank nor `%`. -/
  | lit (c : Byte)
  /-- A blank: any number of blanks in the text. -/
  | blank
  /-- `%d` -/
  | int
  /-- `%<width>s` -/
  | text (width : Nat)
  /-- `%*<width>s` -/
  | skipText (width : Nat)
  deriving DecidableEq, Repr

/-- `%d`: `strtol`, cut to an `int`. -/
def scanInt (s : List Byte) : Option (Int × List Byte) :=
  let p := s.dropWhile isspace
  let p := if deref p = 45 ∨ deref p = 43 then p.tail else p
  if (strtoDigits 10 p).isNone then none
  else some (toInt32 ((strtoll 10 s).1 % 2 ^ 32).toNat, (strtoll 10 s).2)

/-- `%<width>s` -/
def scanText (width : Nat) (s : List Byte) : Option (List Byte × List Byte) :=
  let p := s.dropWhile isspace
  let text := (p.take width).takeWhile (!isspace ·)
  if text = [] then none else some (text, p.drop text.length)

/-- `sscanf`: the numbers and the texts that it stores; it returns how many they are together. -/
def scanDate : List DateDirective → List Byte → List Int × List (List Byte)
  | [], _ => ([], [])
  | .lit _ :: _, [] => ([], [])
  | .lit c :: fmt, d :: s => if d = c then scanDate fmt s else ([], [])
  | .blank :: fmt, s => scanDate fmt (s.dropWhile isspace)
  | .int :: fmt, s =>
    match scanInt s with
    | some (v, rest) => (v :: (scanDate fmt rest).1, (scanDate fmt rest).2)
    | none => ([], [])
  | .text width :: fmt, s =>
    match scanText width s with
    | some (text, rest) => ((scanDate fmt rest).1, text :: (scanDate fmt rest).2)
    | none => ([], [])
  | .skipText width :: fmt, s =>
    match scanText width s with
    | some (_, rest) => scanDate fmt rest
    | none => ([], [])

/-- `" %d:%d:%d"` -/
def timeFormat : List DateDirective := [.blank, .int, .lit COLON, .int, .lit COLON, .int]

/-- `"%d/%3s/%d %d:%d:%d"`, `"%d %3s %d %d:%d:%d"`, `"%*3s, %d %3s %d %d:%d:%d"` and
`"%d-%3s-%d %d:%d:%d"`. -/
def dateFormats : List (List DateDirective) :=
  [.int :: .lit SLASH :: .text 3 :: .lit SLASH :: .int :: timeFormat,
   .int :: .blank :: .text 3 :: .blank :: .int :: timeFormat,
   .skipText 3 :: .lit COMMA :: .blank :: .int :: .blank :: .text 3 :: .blank :: .int :: timeFormat,
   .int :: .lit 45 :: .text 3 :: .lit 45 :: .int :: timeFormat]

/-- The local variables of `parse_date_string`, when `sscanf` has set all six of them. -/
structure DateFields where
  day : Int
  monthStr : List Byte
  year : Int
  hour : Int
  minute : Int
  second : Int
  deriving DecidableEq, Repr

def scanFields (datetime : List Byte) (fmt : List DateDirective) : Option DateFields :=
  match scanDate fmt datetime with
  | ([day, year, hour, minute, second], [monthStr]) => some ⟨day, monthStr, year, hour, minute, second⟩
  | _ => none

def monthNames : List (List Byte) :=
  [ascii "Jan", ascii "Feb", ascii "Mar", ascii "Apr", ascii "May", ascii "Jun", ascii "Jul", ascii "Aug",
   ascii "Sep", ascii "Oct", ascii "Nov", ascii "Dec"]

/-- `get_month_index` -/
def getMonthIndex (s : List Byte) : Int :=
  match monthNames.findIdx? (· == s) with
  | some i => i
  | none => -1

def parseDateString (datetime : List Byte) : Int :=
  match dateFormats.findSome? (scanFields (cstr datetime)) with
  | none => 0
  | some d =>
    let month := getMonthIndex d.monthStr
    if 0 ≤ month ∧ 1970 ≤ d.year then timegm ⟨d.second, d.minute, d.hour, d.day, month, d.year - 1900, 0⟩
    else 0

/-- The fields of a date and a time of day. -/
def brokenDown (d : Calendar.Date) (hour min sec : Nat) (wday : Int) : Tm :=
  ⟨sec, min, hour, d.day, d.month, d.year - 1900, wday⟩

/-- The first of January 1970, a Thursday. -/
def epoch : Calendar.Date := ⟨1970, 0, 1, Nat.succ_pos 11, Nat.one_pos, Calendar.monthDays_pos 1970 0⟩

/-- `gmtime` of the C library; `none` where the year does not fit an `int`. -/
def gmtime (t : Nat) : Option Tm :=
  let d := epoch.after (t / 86400)
  if d.year ≤ INT_MAX + 1900 then
    some (brokenDown d (t % 86400 / 3600) (t % 3600 / 60) (t % 60) ((4 + t / 86400) % 7 : Nat))
  else none

def weekdayNames : List (List Byte) :=
  [ascii "Sun", ascii "Mon", ascii "Tue", ascii "Wed", ascii "Thu", ascii "Fri", ascii "Sat"]

/-- `%d`, `%H`, `%M` and `%S` of `strftime`. -/
def twoDigits (n : Int) : List Byte := [decChar (n.toNat / 10), decChar (n.toNat % 10)]

/-- `strftime` with `"%a, %d %b %Y %H:%M:%S GMT"` in the C locale. -/
def strftime (tm : Tm) : List Byte :=
  weekdayNames.getD tm.tmWday.toNat [] ++ COMMA :: SP :: (twoDigits tm.tmMday ++ SP ::
    (monthNames.getD tm.tmMon.toNat [] ++ SP :: (decText (tm.tmYear + 1900).toNat ++ SP ::
      (twoDigits tm.tmHour ++ COLON :: (twoDigits tm.tmMin ++ COLON :: (twoDigits tm.tmSec ++ ascii " GMT"))))))

/-- `gmt_time_string` in a buffer that the text fits in, as it does in those of all callers. -/
def gmtTimeString (t : Nat) : List Byte :=
  match gmtime t with
  | some tm => strftime tm
  | none => ascii "Thu, 01 Jan 1970 00:00:00 GMT"

theorem isLeap_eq (y : Nat) : isLeap y = decide (Calendar.IsLeap y) := by
  have htmod (k : Nat) : (y : Int).tmod k = (y % k : Nat) := by
    rw [Int.tmod_eq_emod_of_nonneg (Int.natCast_nonneg y), Int.natCast_emod]
  have h4 := htmod 4
  have h100 := htmod 100
  have h400 := htmod 400
  rw [isLeap, Bool.eq_iff_iff, decide_eq_true_iff, Calendar.IsLeap]
  simp only [Nat.cast_ofNat] at h4 h100 h400
  simp only [h4, h100, h400, Bool.or_eq_true, Bool.and_eq_true, beq_iff_eq, bne_iff_ne, ne_eq]
  omega

/-- The three divisions of `count_leap` count the leap years from 1970 on. -/
theorem countLeap_eq (y : Nat) (h : 1970 ≤ y) :
    countLeap y = Calendar.leapYears (y - 1) - Calendar.leapYears 1969 := by
  have hbase : Calendar.leapYears 1969 = 477 := by decide
  rw [countLeap, Int.tdiv_eq_ediv_of_nonneg (by omega), Int.tdiv_eq_ediv_of_nonneg (by omega),
    Int.tdiv_eq_ediv_of_nonneg (by omega), hbase, Calendar.leapYears]
  omega

theorem ydays_before (y month : Nat) (h : month < 12) :
    ydays month + (if (1 : Int) < month ∧ isLeap y then 1 else 0) = Calendar.daysBefore y month := by
  rw [isLeap_eq]
  by_cases hleap : Calendar.IsLeap y <;> interval_cases month <;>
    simp [ydays, Calendar.daysBefore, Calendar.monthDays, hleap]

theorem ydays_month (y month : Nat) (h : month < 12) :
    ydays (month + 1) - ydays month + (if (month : Int) = 1 ∧ isLeap y then 1 else 0) =
      Calendar.monthDays y month := by
  rw [isLeap_eq]
  by_cases hleap : Calendar.IsLeap y <;> interval_cases month <;>
    simp [ydays, Calendar.monthDays, hleap]

/-- A day of the calendar from 1970 on and a time of that day, which may be a leap second. -/
def OnCalendar (tm : Tm) : Prop :=
  ∃ (d : Calendar.Date) (hour min sec : Nat) (wday : Int), 1970 ≤ d.year ∧ hour < 24 ∧ min < 60 ∧ sec ≤ 60 ∧
    tm = brokenDown d hour min sec wday

/-- On the calendar `timegm` counts the days as the calendar does. -/
theorem timegm_brokenDown (d : Calendar.Date) (hour min sec : Nat) (wday : Int) (hyear : 1970 ≤ d.year)
    (hhour : hour < 24) (hmin : min < 60) (hsec : sec ≤ 60) :
    timegm (brokenDown d hour min sec wday) =
      ((Calendar.dayNumber 1970 d * 24 + hour) * 60 + min) * 60 + sec := by
  have hmonth := d.month_lt
  have hpos := d.day_pos
  have hle := d.day_le
  have hbefore := ydays_before d.year d.month hmonth
  have hlength := ydays_month d.year d.month hmonth
  have hleap := countLeap_eq d.year hyear
  have hyears := Calendar.daysOfYears_eq 1969 d.year (by omega)
  have hcast : (d.year : Int) - 1900 + 1900 = d.year := by omega
  rw [show 1969 + 1 = 1970 from rfl] at hyears
  unfold timegm brokenDown
  simp only [hcast]
  rw [if_neg (by omega), hbefore, hleap, Calendar.dayNumber, Calendar.Date.yearDay]
  push_cast
  omega

/-- Everywhere else it returns -1. -/
theorem timegm_outside (tm : Tm) (h : ¬ OnCalendar tm) : timegm tm = -1 := by
  obtain ⟨sec, min, hour, mday, mon, year, wday⟩ := tm
  unfold timegm
  dsimp only
  refine if_pos (by_contra fun hin => h ?_)
  obtain ⟨y, hy⟩ := Int.eq_ofNat_of_zero_le (show 0 ≤ year + 1900 by omega)
  obtain ⟨m, hm⟩ := Int.eq_ofNat_of_zero_le (show 0 ≤ mon by omega)
  obtain ⟨k, hk⟩ := Int.eq_ofNat_of_zero_le (show 0 ≤ mday - 1 by omega)
  obtain ⟨hh, hhour⟩ := Int.eq_ofNat_of_zero_le (show 0 ≤ hour by omega)
  obtain ⟨mm, hmin⟩ := Int.eq_ofNat_of_zero_le (show 0 ≤ min by omega)
  obtain ⟨ss, hsec⟩ := Int.eq_ofNat_of_zero_le (show 0 ≤ sec by omega)
  have hlength := ydays_month y m (by omega)
  rw [hm, hy] at hin
  refine ⟨⟨y, m, k + 1, by omega, by omega, by omega⟩, hh, mm, ss, wday, ?_, by omega, by omega, by omega, ?_⟩
  · dsimp only
    omega
  · unfold brokenDown
    rw [Tm.mk.injEq]
    dsimp only
    exact ⟨hsec, hmin, hhour, by omega, hm, by omega, rfl⟩

theorem timegm_eq_neg_iff (tm : Tm) : timegm tm = -1 ↔ ¬ OnCalendar tm := by
  refine ⟨?_, timegm_outside tm⟩
  rintro h ⟨d, hour, min, sec, wday, hyear, hhour, hmin, hsec, rfl⟩
  rw [timegm_brokenDown d hour min sec wday hyear hhour hmin hsec] at h
  omega

theorem year_gmtime (t : Nat) : 1970 ≤ (epoch.after (t / 86400)).year :=
  Calendar.year_le_after epoch (t / 86400)

theorem dayNumber_gmtime (t : Nat) : Calendar.dayNumber 1970 (epoch.after (t / 86400)) = t / 86400 := by
  have hepoch : Calendar.dayNumber 1970 epoch = 0 := by decide
  rw [Calendar.dayNumber_after 1970 epoch (t / 86400) le_rfl, hepoch, Nat.zero_add]

/-- The broken-down time of `gmtime` counts back to where it came from. -/
theorem timegm_gmtime (t : Nat) (tm : Tm) (wday : Int) (h : gmtime t = some tm) :
    timegm { tm with tmWday := wday } = t := by
  have hcount := timegm_brokenDown (epoch.after (t / 86400)) (t % 86400 / 3600) (t % 3600 / 60) (t % 60) wday
    (year_gmtime t) (by omega) (by omega) (by omega)
  unfold gmtime at h
  dsimp only at h
  split_ifs at h with hyear
  rw [← Option.some.inj h]
  refine hcount.trans ?_
  rw [dayNumber_gmtime]
  omega

/-- The digits of a number that an `int` holds. -/
structure IntDigits (digits : List Byte) (v : Nat) : Prop where
  ne_nil : digits ≠ []
  digit : ∀ a ∈ digits, isDigitIn 10 a = true
  plain : ∀ a ∈ digits, a ≠ 120 ∧ a ≠ 88
  value : Numeral.value 10 digitValue digits = v
  small : v < 2 ^ 31

theorem intDigits_decText (n : Nat) (h : n < 2 ^ 31) : IntDigits (decText n) n :=
  ⟨decText_ne_nil n, decText_digits n, decText_plain n, decText_value n, h⟩

/-- Leading zeros do not matter. -/
theorem intDigits_twoDigits (n : Nat) (h : n < 100) : IntDigits (twoDigits n) n := by
  have hall : ∀ n < 100, (∀ a ∈ twoDigits (n : Nat), isDigitIn 10 a = true) ∧
      (∀ a ∈ twoDigits (n : Nat), a ≠ 120 ∧ a ≠ 88) ∧
      Numeral.value 10 digitValue (twoDigits (n : Nat)) = n := by decide +kernel
  obtain ⟨hdigits, hplain, hvalue⟩ := hall n h
  exact ⟨List.cons_ne_nil _ _, hdigits, hplain, hvalue, by omega⟩

theorem IntDigits.head {digits : List Byte} {v : Nat} (h : IntDigits digits v) :
    ∃ d ds, digits = d :: ds ∧ isspace d = false ∧ d ≠ 45 ∧ d ≠ 43 := by
  obtain ⟨d, ds, hd⟩ := List.exists_cons_of_ne_nil h.ne_nil
  exact ⟨d, ds, hd, digit_noSign 10 d (h.digit d (by simp [hd]))⟩

/-- What ends a number. -/
def EndsNumber (rest : List Byte) : Prop := ∀ c ∈ rest.head?, isDigitIn 10 c = false ∧ c ≠ 120 ∧ c ≠ 88

theorem scanInt_digits {digits : List Byte} {v : Nat} (h : IntDigits digits v) (rest : List Byte)
    (hrest : EndsNumber rest) : scanInt (digits ++ rest) = some ((v : Int), rest) := by
  have hread := strtol_text 10 digits rest h.digit h.ne_nil h.plain hrest
  have hdig := strtoDigits_text 10 digits rest h.digit h.ne_nil h.plain hrest
  have hsmall := h.small
  obtain ⟨d, ds, hd, hsp, hminus, hplus⟩ := h.head
  have hskip : (digits ++ rest).dropWhile isspace = digits ++ rest := by
    rw [hd]
    simp [hsp]
  have hsign : ¬ (deref (digits ++ rest) = 45 ∨ deref (digits ++ rest) = 43) := by
    rw [hd]
    simp [hminus, hplus]
  have hval : strtoll 10 (digits ++ rest) = ((v : Int), rest) := by
    rw [strtoll, hread, h.value]
    have hmin : min (2 ^ 63 - 1 : Int) v = v := min_eq_right (by omega)
    simp only [Bool.false_eq_true, if_false, hmin]
  have hint : toInt32 ((v : Int) % 2 ^ 32).toNat = v := by
    have hmod : ((v : Int) % 2 ^ 32).toNat = v := by omega
    rw [hmod, toInt32, if_pos hsmall]
  rw [scanInt, hskip]
  simp only [if_neg hsign, hdig, hval, hint]
  simp

theorem scanInt_letter (c : Byte) (s : List Byte) (hsp : isspace c = false) (hsign : c ≠ 45 ∧ c ≠ 43)
    (hdigit : isDigitIn 10 c = false) : scanInt (c :: s) = none := by
  have hskip : (c :: s).dropWhile isspace = c :: s := by simp [hsp]
  have hnone : strtoDigits 10 (c :: s) = none := by simp [strtoDigits, hdigit]
  rw [scanInt, hskip]
  simp [hsign.1, hsign.2, hnone]

theorem scanText_word (word rest : List Byte) (hne : word ≠ []) (hword : ∀ c ∈ word, isspace c = false) :
    scanText word.length (word ++ rest) = some (word, rest) := by
  have hskip : (word ++ rest).dropWhile isspace = word ++ rest := by
    obtain ⟨c, cs, hc⟩ := List.exists_cons_of_ne_nil hne
    rw [hc] at hword ⊢
    simp [hword c (by simp)]
  have htake : word.takeWhile (!isspace ·) = word :=
    List.takeWhile_eq_self_iff.mpr (fun c hc => by simp [hword c hc])
  rw [scanText, hskip]
  simp only [List.take_left, htake, List.drop_left, if_neg hne]

theorem scanDate_blank (fmt : List DateDirective) (c : Byte) (s : List Byte) (hc : isspace c = false) :
    scanDate (.blank :: fmt) (SP :: c :: s) = scanDate fmt (c :: s) := by
  have hsp : isspace SP = true := rfl
  rw [scanDate]
  simp [hsp, hc]

/-- A number between a blank and what ends it. -/
theorem scanDate_number {digits : List Byte} {v : Nat} (h : IntDigits digits v) (fmt : List DateDirective)
    (rest : List Byte) (hrest : EndsNumber rest) : scanDate (.blank :: .int :: fmt) (SP :: (digits ++ rest)) =
      ((v : Int) :: (scanDate fmt rest).1, (scanDate fmt rest).2) := by
  obtain ⟨d, ds, hd, hsp, -⟩ := h.head
  have hread := scanInt_digits h rest hrest
  rw [hd, List.cons_append] at hread ⊢
  rw [scanDate_blank _ _ _ hsp, scanDate, hread]

/-- The names are words of three letters, and a month's stands for it. -/
theorem weekdayNames_word : ∀ i < 7, ∃ c cs, weekdayNames.getD i [] = c :: cs ∧ (c :: cs).length = 3 ∧
    (∀ a ∈ c :: cs, isspace a = false) ∧ c ≠ 45 ∧ c ≠ 43 ∧ isDigitIn 10 c = false := by
  intro i hi
  interval_cases i <;> exact ⟨_, _, rfl, rfl, by decide, by decide, by decide, by decide⟩

theorem monthNames_word : ∀ i < 12, ∃ c cs, monthNames.getD i [] = c :: cs ∧ (c :: cs).length = 3 ∧
    (∀ a ∈ c :: cs, isspace a = false) ∧ getMonthIndex (c :: cs) = i := by
  intro i hi
  interval_cases i <;> exact ⟨_, _, rfl, rfl, by decide, rfl⟩

/-- The time of day as it is read. -/
theorem scanDate_time (hour min sec : Nat) (hhour : hour < 100) (hmin : min < 100) (hsec : sec < 100) :
    scanDate timeFormat (SP :: (twoDigits hour ++ COLON :: (twoDigits min ++ COLON ::
      (twoDigits sec ++ ascii " GMT")))) = ([(hour : Int), (min : Int), (sec : Int)], []) := by
  have hend (rest : List Byte) : EndsNumber (COLON :: rest) := by
    intro c hc
    rw [← Option.mem_some.mp hc]
    decide
  have hzone : EndsNumber (ascii " GMT") := by
    intro c hc
    rw [← Option.mem_some.mp hc]
    decide
  rw [timeFormat, scanDate_number (intDigits_twoDigits hour hhour) _ _ (hend _), scanDate, if_pos rfl, scanDate,
    scanInt_digits (intDigits_twoDigits min hmin) _ (hend _)]
  dsimp only
  rw [scanDate, if_pos rfl, scanDate, scanInt_digits (intDigits_twoDigits sec hsec) _ hzone]
  rfl

theorem strftime_brokenDown (d : Calendar.Date) (hour min sec wday : Nat) :
    strftime (brokenDown d hour min sec wday) = weekdayNames.getD wday [] ++ COMMA :: SP ::
      (twoDigits d.day ++ SP :: (monthNames.getD d.month [] ++ SP :: (decText d.year ++ SP ::
        (twoDigits hour ++ COLON :: (twoDigits min ++ COLON :: (twoDigits sec ++ ascii " GMT")))))) := by
  have hyear : ((d.year : Int) - 1900 + 1900).toNat = d.year := by omega
  simp only [strftime, brokenDown, hyear, Int.toNat_natCast]

theorem monthDays_le (y month : Nat) : Calendar.monthDays y month ≤ 31 := by
  unfold Calendar.monthDays
  split_ifs <;> decide

theorem date_day_lt (d : Calendar.Date) : d.day < 100 := by
  have hle := d.day_le
  have hmonth := monthDays_le d.year d.month
  omega

/-- The third format takes the text apart. -/
theorem scanFields_strftime (d : Calendar.Date) (hour min sec wday : Nat) (hyear : d.year < 2 ^ 31)
    (hhour : hour < 24) (hmin : min < 60) (hsec : sec ≤ 60) (hwday : wday < 7) :
    scanFields (strftime (brokenDown d hour min sec wday))
      (.skipText 3 :: .lit COMMA :: .blank :: .int :: .blank :: .text 3 :: .blank :: .int :: timeFormat) =
      some ⟨d.day, monthNames.getD d.month [], d.year, hour, min, sec⟩ := by
  obtain ⟨w, ws, hw, hwlen, hwword, -⟩ := weekdayNames_word wday hwday
  obtain ⟨m, ms, hm, hmlen, hmword, -⟩ := monthNames_word d.month d.month_lt
  have hday := date_day_lt d
  have hend (rest : List Byte) : EndsNumber (SP :: rest) := by
    intro c hc
    rw [← Option.mem_some.mp hc]
    decide
  have htime := scanDate_time hour min sec (by omega) (by omega) (by omega)
  have hweekday := scanText_word (w :: ws)
  have hmonth := scanText_word (m :: ms)
  rw [hwlen] at hweekday
  rw [hmlen] at hmonth
  have hscan : scanDate
      (.skipText 3 :: .lit COMMA :: .blank :: .int :: .blank :: .text 3 :: .blank :: .int :: timeFormat)
      (strftime (brokenDown d hour min sec wday)) =
      ([(d.day : Int), (d.year : Int), (hour : Int), (min : Int), (sec : Int)], [m :: ms]) := by
    rw [strftime_brokenDown, hw, hm]
    rw [scanDate, hweekday _ (List.cons_ne_nil _ _) hwword]
    dsimp only
    rw [scanDate, if_pos rfl, scanDate_number (intDigits_twoDigits d.day hday) _ _ (hend _),
      List.cons_append, scanDate_blank _ _ _ (hmword m (by simp)), scanDate, ← List.cons_append,
      hmonth _ (List.cons_ne_nil _ _) hmword]
    dsimp only
    rw [scanDate_number (intDigits_decText d.year hyear) _ _ (hend _), htime]
  rw [scanFields, hscan, hm]

/-- The first two formats want a number where the text has the day of the week. -/
theorem scanFields_weekday (d : Calendar.Date) (hour min sec wday : Nat) (hwday : wday < 7)
    (fmt : List DateDirective) : scanFields (strftime (brokenDown d hour min sec wday)) (.int :: fmt) = none := by
  obtain ⟨w, ws, hw, -, hword, hminus, hplus, hdigit⟩ := weekdayNames_word wday hwday
  rw [strftime_brokenDown, hw, scanFields, List.cons_append, scanDate,
    scanInt_letter w _ (hword w (by simp)) ⟨hminus, hplus⟩ hdigit]

theorem strftime_noNul (d : Calendar.Date) (hour min sec wday : Nat) (hhour : hour < 24) (hmin : min < 60)
    (hsec : sec ≤ 60) (hwday : wday < 7) : NUL ∉ strftime (brokenDown d hour min sec wday) := by
  have hdays : ∀ i < 7, NUL ∉ weekdayNames.getD i [] := by decide
  have hmonths : ∀ i < 12, NUL ∉ monthNames.getD i [] := by decide
  have hdigits (digits : List Byte) (v : Nat) (h : IntDigits digits v) : NUL ∉ digits :=
    fun hn => absurd (h.digit NUL hn) (by decide)
  have hday := hdigits _ _ (intDigits_twoDigits d.day (date_day_lt d))
  have hyear : NUL ∉ decText d.year := fun hn => absurd (decText_digits d.year NUL hn) (by decide)
  have hh := hdigits _ _ (intDigits_twoDigits hour (by omega))
  have hm := hdigits _ _ (intDigits_twoDigits min (by omega))
  have hs := hdigits _ _ (intDigits_twoDigits sec (by omega))
  rw [strftime_brokenDown]
  simp only [List.mem_append, List.mem_cons, not_or]
  exact ⟨hdays wday hwday, by decide, by decide, hday, by decide, hmonths d.month d.month_lt, by decide, hyear,
    by decide, hh, by decide, hm, by decide, hs, by decide⟩

/-- What `strftime` writes `parse_date_string` reads. -/
theorem parseDateString_strftime (d : Calendar.Date) (hour min sec wday : Nat) (hfrom : 1970 ≤ d.year)
    (hyear : d.year < 2 ^ 31) (hhour : hour < 24) (hmin : min < 60) (hsec : sec ≤ 60) (hwday : wday < 7) :
    parseDateString (strftime (brokenDown d hour min sec wday)) = timegm (brokenDown d hour min sec 0) := by
  obtain ⟨m, ms, hm, -, -, hindex⟩ := monthNames_word d.month d.month_lt
  have hfirst := scanFields_weekday d hour min sec wday hwday
  have hthird := scanFields_strftime d hour min sec wday hyear hhour hmin hsec hwday
  have hfind : dateFormats.findSome? (scanFields (strftime (brokenDown d hour min sec wday))) =
      some ⟨d.day, monthNames.getD d.month [], d.year, hour, min, sec⟩ := by
    rw [dateFormats, List.findSome?, hfirst, List.findSome?, hfirst, List.findSome?, hthird]
  rw [parseDateString, cstr_of_no_nul _ (strftime_noNul d hour min sec wday hhour hmin hsec hwday), hfind, hm]
  dsimp only
  rw [hindex, if_pos (by omega)]
  rfl

theorem gmtime_year (t : Nat) (h : t < 253402300800) : (epoch.after (t / 86400)).year ≤ INT_MAX := by
  have hday := dayNumber_gmtime t
  have hge := Calendar.daysOfYears_ge 1970 (epoch.after (t / 86400)).year
  have hmax : INT_MAX = 2 ^ 31 - 1 := rfl
  rw [Calendar.dayNumber] at hday
  omega

/-- From 1970 to 9999 what `gmt_time_string` writes is read back. -/
theorem parseDateString_gmtTimeString (t : Nat) (h : t < 253402300800) :
    parseDateString (gmtTimeString t) = t := by
  have hyear := gmtime_year t h
  have hmax : INT_MAX = 2 ^ 31 - 1 := rfl
  obtain ⟨tm, htm⟩ : ∃ tm, tm = brokenDown (epoch.after (t / 86400)) (t % 86400 / 3600) (t % 3600 / 60) (t % 60)
    ((4 + t / 86400) % 7 : Nat) := ⟨_, rfl⟩
  have hgm : gmtime t = some tm := by
    unfold gmtime
    dsimp only
    rw [if_pos (le_add_right hyear), htm]
  have hback := timegm_gmtime t tm 0 hgm
  rw [gmtTimeString, hgm]
  dsimp only
  rw [htm] at hback ⊢
  rw [parseDateString_strftime _ _ _ _ _ (year_gmtime t) (by omega) (by omega) (by omega) (by omega) (by omega)]
  exact hback

theorem strftime_length (d : Calendar.Date) (hour min sec wday : Nat) (hyear : d.year ≤ INT_MAX + 1900)
    (hwday : wday < 7) : (strftime (brokenDown d hour min sec wday)).length ≤ 35 := by
  obtain ⟨w, ws, hw, hwlen, -⟩ := weekdayNames_word wday hwday
  obtain ⟨m, ms, hm, hmlen, -⟩ := monthNames_word d.month d.month_lt
  have hmax : INT_MAX = 2 ^ 31 - 1 := rfl
  have hdigits := decText_length_le d.year 10 (by decide) (by omega)
  have hgmt : (ascii " GMT").length = 4 := rfl
  rw [List.length_cons] at hwlen hmlen
  rw [strftime_brokenDown, hw, hm]
  simp only [List.length_append, List.length_cons, twoDigits, hgmt]
  simp only [List.length_nil]
  omega

/-- All texts of `gmt_time_string` fit into its callers' buffers of 64 bytes. -/
theorem gmtTimeString_length (t : Nat) : (gmtTimeString t).length ≤ 35 := by
  unfold gmtTimeString gmtime
  dsimp only
  split_ifs with hyear
  · exact strftime_length _ _ _ _ _ hyear (by omega)
  · decide

end CivetWeb
