import NetWatch.Kernel.Types

namespace NetWatch.Collector.Classify

open Kernel.Types

def transport (proto : UInt8) : String :=
  if proto = ipprotoTcp then "TCP" else if proto = ipprotoUdp then "UDP" else "OTHER"

inductive Sniffed
  | tls
  | http
  | http2
  | ssh
  deriving DecidableEq

def httpMethods : List (List UInt8) :=
  ["GET ", "POST", "PUT ", "HEAD", "DELE", "OPTI", "PATC", "CONN", "TRAC", "HTTP"].map fun m => m.toUTF8.toList

def sniff (head : List UInt8) : Option Sniffed :=
  match head with
  | a :: b :: c :: _ :: _ =>
    if 0x14 ≤ a ∧ a ≤ 0x17 ∧ b = 0x03 ∧ c ≤ 0x04 then some .tls
    else if "SSH-".toUTF8.toList <+: head then some .ssh
    else if "PRI * HT".toUTF8.toList <+: head then some .http2
    else if httpMethods.any fun m => m.isPrefixOf head then some .http
    else none
  | _ => none

/-- One arm of `well_known`: the ports from `low` to `high`, for TCP only, for
everything else only, or for both. -/
structure Arm where
  tcp : Option Bool
  low : UInt16
  high : UInt16
  label : String

def arm (tcp : Option Bool) (port : UInt16) (label : String) : Arm := ⟨tcp, port, port, label⟩

def Arm.covers (a : Arm) (tcp : Bool) (port : UInt16) : Bool :=
  a.tcp.all (· = tcp) && a.low ≤ port && port ≤ a.high

def arms : List Arm :=
  [arm (some true) 20 "FTP-DATA", arm (some true) 21 "FTP", arm none 22 "SSH", arm (some true) 23 "Telnet",
    arm (some true) 25 "SMTP", arm (some true) 587 "SMTP", arm none 53 "DNS", arm (some false) 67 "DHCP",
    arm (some false) 68 "DHCP", arm (some false) 69 "TFTP", arm (some true) 80 "HTTP",
    arm (some true) 8080 "HTTP", arm (some true) 8000 "HTTP", arm (some true) 110 "POP3", arm none 111 "RPC",
    arm (some false) 123 "NTP", ⟨none, 137, 139, "NetBIOS"⟩, arm (some true) 143 "IMAP",
    arm (some false) 161 "SNMP", arm (some false) 162 "SNMP", arm (some true) 179 "BGP", arm none 389 "LDAP",
    arm (some true) 443 "HTTPS", arm (some true) 8443 "HTTPS", arm (some false) 443 "QUIC",
    arm (some true) 445 "SMB", arm (some true) 465 "SMTPS", arm (some false) 500 "IPsec",
    arm (some false) 4500 "IPsec", arm (some false) 514 "Syslog", arm (some true) 636 "LDAPS",
    arm (some true) 853 "DoT", arm (some true) 873 "rsync", arm (some true) 990 "FTPS",
    arm (some true) 993 "IMAPS", arm (some true) 995 "POP3S", arm (some true) 1080 "SOCKS",
    arm none 1194 "OpenVPN", arm (some true) 1433 "MSSQL", arm (some true) 1521 "Oracle",
    arm (some true) 1883 "MQTT", arm (some true) 8883 "MQTT", arm (some false) 1900 "SSDP",
    arm none 2049 "NFS", arm (some true) 2375 "Docker", arm (some true) 2376 "Docker",
    arm (some true) 3306 "MySQL", arm none 3389 "RDP", arm none 3478 "STUN", arm (some true) 5222 "XMPP",
    arm (some false) 5353 "mDNS", arm (some false) 5355 "LLMNR", arm (some true) 5432 "PostgreSQL",
    arm (some true) 5672 "AMQP", ⟨some true, 5900, 5903, "VNC"⟩, arm (some true) 6379 "Redis",
    arm (some true) 6443 "Kubernetes", arm (some true) 6667 "IRC", ⟨some true, 6881, 6889, "BitTorrent"⟩,
    ⟨some false, 6881, 6889, "BitTorrent"⟩, arm (some true) 8123 "ClickHouse", arm (some true) 9092 "Kafka",
    arm (some true) 9200 "Elasticsearch", arm (some true) 9418 "Git", arm none 11211 "Memcached",
    arm (some true) 27017 "MongoDB", arm (some false) 41641 "Tailscale", arm (some false) 51820 "WireGuard"]

def wellKnown (proto : UInt8) (port : UInt16) : Option String :=
  (arms.find? fun a => a.covers (proto = ipprotoTcp) port).map Arm.label

/-- Labels of the services that are TLS-wrapped themselves. -/
def tlsServices : List String :=
  ["IMAPS", "POP3S", "SMTPS", "LDAPS", "FTPS", "DoT", "MQTT", "Kubernetes", "Docker"]

def app (proto : UInt8) (rport lport : UInt16) (sniffed : Option Sniffed) : String :=
  let byPort := (wellKnown proto rport).or (wellKnown proto lport)
  match sniffed with
  | some .ssh => "SSH"
  | some .http => "HTTP"
  | some .http2 => "HTTP/2"
  | some .tls =>
    match byPort with
    | some p => if p = "HTTP" ∨ p = "HTTPS" then "HTTPS" else if p ∈ tlsServices then p else "TLS"
    | none => "TLS"
  | none => byPort.getD "unknown"

example : app ipprotoTcp 80 50123 (sniff [0x16, 3, 3, 0, 0, 0, 0, 0]) = "HTTPS" := by decide +kernel

example : app ipprotoTcp 50123 22 none = "SSH" := by decide +kernel

def labels : List String :=
  arms.map Arm.label ++ ["SSH", "HTTP", "HTTP/2", "HTTPS", "TLS", "unknown"]

theorem wellKnown_mem {proto : UInt8} {port : UInt16} {p : String} (h : wellKnown proto port = some p) :
    p ∈ labels := by
  obtain ⟨a, ha, rfl⟩ := Option.map_eq_some_iff.mp h
  exact List.mem_append_left _ (List.mem_map_of_mem (List.mem_of_find?_eq_some ha))

theorem app_mem (proto : UInt8) (rport lport : UInt16) (sniffed : Option Sniffed) :
    app proto rport lport sniffed ∈ labels := by
  have hfix : ∀ p ∈ ["SSH", "HTTP", "HTTP/2", "HTTPS", "TLS", "unknown"], p ∈ labels :=
    fun p hp => List.mem_append_right _ hp
  have hport : ∀ p, (wellKnown proto rport).or (wellKnown proto lport) = some p → p ∈ labels := by
    intro p hp
    rcases Option.or_eq_some_iff.mp hp with h | ⟨-, h⟩
    · exact wellKnown_mem h
    · exact wellKnown_mem h
  unfold app
  rcases sniffed with _ | sn
  · cases hb : (wellKnown proto rport).or (wellKnown proto lport) with
    | none => exact hfix "unknown" (by simp)
    | some p => exact hport p hb
  · cases sn with
    | tls =>
        cases hb : (wellKnown proto rport).or (wellKnown proto lport) with
        | none => exact hfix "TLS" (by simp)
        | some p =>
            dsimp only
            split_ifs
            · exact hfix "HTTPS" (by simp)
            · exact hport p hb
            · exact hfix "TLS" (by simp)
    | http => exact hfix "HTTP" (by simp)
    | http2 => exact hfix "HTTP/2" (by simp)
    | ssh => exact hfix "SSH" (by simp)

end NetWatch.Collector.Classify
