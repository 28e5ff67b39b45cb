import OpenCms.Lib.Civil
import OpenCms.Cron.Schedule

/-!
# Clocks at a fixed offset

When a clock does not change between summer and winter, the local time is the time in UTC and an
offset. `OpenCms.Cron.Calendar.fixed` is what dates are then. Times are milliseconds since the first
of January 1970 in UTC.
-/

namespace OpenCms.Cron

def msPerMinute : ℤ := 60 * 1000

def msPerHour : ℤ := 60 * 60 * 1000

def msPerDay : ℤ := 24 * 60 * 60 * 1000

def Calendar.fixed (parse : JsString → Option ℤ) (host : ℤ) (zone : JsString → Option ℤ) :
    Calendar where
  parse := parse
  -- the local date with the same year, month and so on, up to the second
  dateInTimezone nowMs tz :=
    (zone tz).map fun offset => (nowMs + offset) / 1000 * 1000 - host
  fullMinute t := (t + host) / msPerMinute * msPerMinute - host
  nextMinute t := t + msPerMinute
  getMonth t := (Civil.dateOfDay ((t + host) / msPerDay)).1
  getDate t := (Civil.dateOfDay ((t + host) / msPerDay)).2
  getDay t := Civil.weekDay ((t + host) / msPerDay)
  getHours t := ((t + host) / msPerHour % 24).toNat
  getMinutes t := ((t + host) / msPerMinute % 60).toNat
  currentMinutes nowMs tz :=
    ((nowMs + ((tz.filter (· ≠ [])).bind zone).getD host) / msPerMinute % (24 * 60)).toNat
  currentMinutes_lt nowMs tz := by omega

end OpenCms.Cron
